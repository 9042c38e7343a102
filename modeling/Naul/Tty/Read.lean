import Naul.Tty
import Naul.Lib.Trace

/-!
# Reading from a terminal (`read` of `os/src/tty.c`, `terminalThread` of `os/src/terminal.c`)

A thread that reads stores the cursor 0, its buffer and its length into the terminal's `TtyBuffer`,
under the lock, and then waits until `readBuffer` is null. The terminal thread, which does not take
the lock, takes one key after the other and stores characters into `readBuffer`; at the end of the
line it stores the terminator and sets `readBuffer` to null.

Threads are interrupted between any two stores: a step is a store with the loads it needs, or a test.
The key event of a character key comes with the character that the tables give for it. What the
threads do with the screen is left out, and so are the other functions that take the lock, which do
not touch the request.

A call keeps, as a ghost, the memory when it began and the memory when the terminator was stored into
its buffer. `Proper` excludes two things the code does not: a second call that overwrites the request
of a first one, and a character that is taken between the stores of the buffer and of the length, by
the length of an earlier and longer call.
-/

namespace Naul

/-- What is pressed or released; `character` is what the tables give for another key, 0 for none. -/
inductive Key
  | backspace
  | enter
  | other (character : UInt8)
  deriving DecidableEq

structure KeyEvent where
  key : Key
  pressed : Bool
  deriving DecidableEq

namespace Reading

/-- The place in `read`: before `lock`, before the three stores, before `unlock`, and in the loop. -/
inductive Stage
  | lock
  | cursor
  | buffer
  | length
  | unlock
  | waiting
  deriving DecidableEq

/-- Between `lock` and `unlock`. -/
def Stage.inSection : Stage → Bool
  | .lock | .waiting => false
  | .cursor | .buffer | .length | .unlock => true

/-- After the store of the buffer. -/
def Stage.published : Stage → Bool
  | .lock | .cursor | .buffer => false
  | .length | .unlock | .waiting => true

/-- A call `read(buffer, length)`, for a buffer at a physical address. -/
structure Call where
  stage : Stage
  buffer : UInt64
  length : UInt64
  before : Cells UInt8
  ended : Option (Cells UInt8)

/-- The place in `terminalThread`: between two keys, before the test of `readBuffer`, after it, and
before each of the stores. A character's address is loaded where the cursor is advanced. -/
inductive Place
  | idle
  | test (e : KeyEvent)
  | branch (e : KeyEvent)
  | stepBack
  | advanceCursor (character : UInt8)
  | storeCharacter (character : UInt8) (address : ℕ)
  | terminate
  | release
  deriving DecidableEq

/-- After the test of `readBuffer`. -/
def Place.active : Place → Bool
  | .idle | .test _ => false
  | _ => true

/-- A character is taken. -/
def Place.takes : Place → Bool
  | .advanceCursor _ => true
  | _ => false

/-- The terminator has been stored into the buffer at `buffer`. -/
def Call.finish (buffer : UInt64) (m : Cells UInt8) (c : Call) : Call :=
  if c.stage.published ∧ c.buffer = buffer ∧ c.ended.isNone then { c with ended := some m } else c

end Reading

/-- The terminal's buffer, the thread that has `ttyLock`, the memory, the calls in progress, and the
place of the terminal thread. -/
structure Reading where
  tty : TtyBuffer
  ttyLock : Option ℕ
  memory : Cells UInt8
  call : ℕ → Option Reading.Call
  terminal : Reading.Place

namespace Reading

inductive Event
  | read (thread : ℕ) (buffer length : UInt64)
  /-- A thread takes its next step in `read`. -/
  | thread (thread : ℕ)
  /-- The terminal thread takes the next key. -/
  | key (e : KeyEvent)
  /-- The terminal thread takes its next step. -/
  | terminal
  deriving DecidableEq

def setCall (t : ℕ) (c : Option Call) (s : Reading) : Reading :=
  { s with call := Function.update s.call t c }

def goto (t : ℕ) (c : Call) (stage : Stage) (s : Reading) : Reading :=
  s.setCall t (some { c with stage := stage })

/-- The next step of thread `t` in the call `c`. -/
def readStep (t : ℕ) (c : Call) (s : Reading) : Reading :=
  match c.stage with
  | .lock => if s.ttyLock.isSome then s else { s.goto t c .cursor with ttyLock := some t }
  | .cursor => { s.goto t c .buffer with tty.readCursor := 0 }
  | .buffer => { s.goto t c .length with tty.readBuffer := c.buffer }
  | .length => { s.goto t c .unlock with tty.readLength := c.length }
  | .unlock => { s.goto t c .waiting with ttyLock := none }
  | .waiting => if s.tty.readBuffer ≠ 0 then s else s.setCall t none

/-- The address of `readBuffer[readCursor]`. -/
def address (s : Reading) : ℕ := s.tty.readBuffer.toNat + s.tty.readCursor.toNat

/-- The branch of the `switch` for a key. -/
def branch (tty : TtyBuffer) (e : KeyEvent) : Place :=
  match e.key with
  | .backspace => if e.pressed ∧ 0 < tty.readCursor then .stepBack else .idle
  | .enter => if e.pressed then .terminate else .idle
  | .other character =>
    if e.pressed ∧ tty.readCursor < tty.readLength then
      if character ≠ 0 then .advanceCursor character else .idle
    else .idle

def terminalStep (s : Reading) : Option Reading :=
  match s.terminal with
  | .idle => none
  | .test e => some { s with terminal := if s.tty.readBuffer ≠ 0 then .branch e else .idle }
  | .branch e => some { s with terminal := branch s.tty e }
  | .stepBack => some { s with tty.readCursor := s.tty.readCursor - 1, terminal := .idle }
  | .advanceCursor character =>
    some { s with
      tty.readCursor := s.tty.readCursor + 1
      terminal := .storeCharacter character s.address }
  | .storeCharacter character a =>
    some { s with memory := s.memory.store a character, terminal := .idle }
  | .terminate =>
    let memory := s.memory.store s.address 0
    some { s with
      memory := memory
      call := fun t => (s.call t).map (Call.finish s.tty.readBuffer memory)
      terminal := .release }
  | .release => some { s with tty.readBuffer := 0, terminal := .idle }

def step (s : Reading) : Event → Option Reading
  | .read t buffer length =>
    match s.call t with
    | none => some (s.setCall t (some ⟨.lock, buffer, length, s.memory, none⟩))
    | some _ => none
  | .thread t => (s.call t).map fun c => s.readStep t c
  | .key e => if s.terminal = .idle then some { s with terminal := .test e } else none
  | .terminal => s.terminalStep

/-! ### Lines -/

/-- Since the call began, `k` characters have been stored to the front of its buffer, which are still
there. -/
def Typed (c : Call) (m : Cells UInt8) (k : ℕ) : Prop :=
  ∃ new, m.stores = new ++ c.before.stores ∧
    ∀ i < k, c.buffer.toNat + i ∈ new ∧ m.cell (c.buffer.toNat + i) ≠ 0

/-- And the terminator after them. -/
def Line (c : Call) (m : Cells UInt8) (k : ℕ) : Prop :=
  ∃ new, m.stores = new ++ c.before.stores ∧
    (∀ i < k, c.buffer.toNat + i ∈ new ∧ m.cell (c.buffer.toNat + i) ≠ 0) ∧
    c.buffer.toNat + k ∈ new ∧ m.cell (c.buffer.toNat + k) = 0

/-- During the call its buffer has been filled with a line of at most `length` characters. -/
def Call.Filled (c : Call) : Prop := ∃ m ∈ c.ended, ∃ k ≤ c.length.toNat, Line c m k

variable {s s' : Reading} {c : Call} {m : Cells UInt8} {j k : ℕ}

theorem Typed.mono (h : Typed c m k) (hjk : j ≤ k) : Typed c m j := by
  obtain ⟨new, hnew, htyped⟩ := h
  exact ⟨new, hnew, fun i hi => htyped i (hi.trans_le hjk)⟩

/-- One more character. -/
theorem Typed.store (h : Typed c m k) {a : ℕ} {v : UInt8} (ha : a = c.buffer.toNat + k) (hv : v ≠ 0) :
    Typed c (m.store a v) (k + 1) := by
  obtain ⟨new, hnew, htyped⟩ := h
  subst ha
  refine ⟨(c.buffer.toNat + k) :: new, by rw [Cells.store_stores, hnew]; rfl, fun i hi => ?_⟩
  rcases Nat.lt_succ_iff_lt_or_eq.1 hi with hlt | rfl
  · have hne : c.buffer.toNat + i ≠ c.buffer.toNat + k := by omega
    rw [Cells.store_cell, if_neg hne]
    exact ⟨List.mem_cons_of_mem _ (htyped i hlt).1, (htyped i hlt).2⟩
  · rw [Cells.store_cell, if_pos rfl]
    exact ⟨List.mem_cons_self, hv⟩

/-- The terminator. -/
theorem Typed.line (h : Typed c m k) : Line c (m.store (c.buffer.toNat + k) 0) k := by
  obtain ⟨new, hnew, htyped⟩ := h
  refine ⟨(c.buffer.toNat + k) :: new, by rw [Cells.store_stores, hnew]; rfl, fun i hi => ?_,
    List.mem_cons_self, by rw [Cells.store_cell, if_pos rfl]⟩
  have hne : c.buffer.toNat + i ≠ c.buffer.toNat + k := by omega
  rw [Cells.store_cell, if_neg hne]
  exact ⟨List.mem_cons_of_mem _ (htyped i hi).1, (htyped i hi).2⟩

/-- A store elsewhere only adds to what has been stored. -/
theorem Typed.begun_store (h : Typed c m 0) (a : ℕ) (v : UInt8) : Typed c (m.store a v) 0 := by
  obtain ⟨new, hnew, -⟩ := h
  exact ⟨a :: new, by rw [Cells.store_stores, hnew]; rfl, fun i hi => absurd hi (Nat.not_lt_zero i)⟩

/-! ### The invariant -/

/-- How far the line of the call `c` is, by the place of the terminal thread. -/
def AtPlace (s : Reading) (c : Call) : Prop :=
  match s.terminal with
  | .idle | .test _ | .branch _ | .terminate =>
    c.ended = none ∧ Typed c s.memory s.tty.readCursor.toNat
  | .stepBack =>
    c.ended = none ∧ Typed c s.memory s.tty.readCursor.toNat ∧ 0 < s.tty.readCursor
  | .advanceCursor character =>
    c.ended = none ∧ Typed c s.memory s.tty.readCursor.toNat ∧ character ≠ 0 ∧
      s.tty.readCursor < c.length
  | .storeCharacter character a =>
    c.ended = none ∧ character ≠ 0 ∧
      ∃ k, s.tty.readCursor.toNat = k + 1 ∧ a = c.buffer.toNat + k ∧ Typed c s.memory k
  | .release => c.Filled

/-- The request in the terminal's buffer is that of the call `c`, whose length may still be missing. -/
structure Owned (s : Reading) (c : Call) : Prop where
  published : c.stage.published = true
  buffer : s.tty.readBuffer = c.buffer
  cursor : s.tty.readCursor ≤ c.length
  fits : c.stage = .length ∨ s.tty.readLength = c.length
  place : s.AtPlace c

structure Inv (s : Reading) : Prop where
  mutex : ∀ t c, s.call t = some c → c.stage.inSection = true → s.ttyLock = some t
  begun : ∀ t c, s.call t = some c →
    c.buffer ≠ 0 ∧ Typed c s.memory 0 ∧ (c.stage.published = false → c.ended = none)
  starting : ∀ t c, s.call t = some c → c.stage = .buffer →
    s.tty.readBuffer = 0 ∧ s.tty.readCursor = 0
  quiet : s.tty.readBuffer = 0 → s.terminal.active = false ∧
    ∀ t c, s.call t = some c → c.stage.published = true → c.Filled
  pending : s.tty.readBuffer ≠ 0 → ∃ t c, s.call t = some c ∧ s.Owned c ∧
    ∀ u d, u ≠ t → s.call u = some d → d.stage.published = true → d.Filled ∧ d.stage ≠ .length

variable {t u : ℕ} {d : Call} {stage : Stage} {l : Option ℕ}

theorem call_setCall {c : Option Call} :
    (s.setCall t c).call u = some d ↔ u = t ∧ c = some d ∨ u ≠ t ∧ s.call u = some d := by
  unfold setCall
  by_cases hut : u = t
  · simp [hut]
  · simp [hut]

theorem call_goto (hd : (s.goto t c stage).call u = some d) :
    u = t ∧ d = { c with stage := stage } ∨ u ≠ t ∧ s.call u = some d :=
  (call_setCall.1 hd).imp_left fun ⟨hut, heq⟩ => ⟨hut, (Option.some.inj heq).symm⟩

/-! ### Steps of a reader -/

/-- A call begins. -/
theorem Inv.read (h : s.Inv) (hcall : s.call t = none) {buffer : UInt64} (hbuffer : buffer ≠ 0)
    (length : UInt64) : (s.setCall t (some ⟨.lock, buffer, length, s.memory, none⟩)).Inv := by
  have hnew : ∀ {u d}, (s.setCall t (some ⟨.lock, buffer, length, s.memory, none⟩)).call u = some d →
      d = ⟨.lock, buffer, length, s.memory, none⟩ ∨ s.call u = some d := fun {u d} hd =>
    (call_setCall.1 hd).imp (fun ⟨_, heq⟩ => (Option.some.inj heq).symm) And.right
  refine ⟨fun u d hd hin => ?_, fun u d hd => ?_, fun u d hd hst => ?_, fun h0 => ?_, fun hne => ?_⟩
  · rcases hnew hd with rfl | hd
    · cases hin
    · exact h.mutex u d hd hin
  · rcases hnew hd with rfl | hd
    · exact ⟨hbuffer, ⟨[], rfl, fun i hi => absurd hi (Nat.not_lt_zero i)⟩, fun _ => rfl⟩
    · exact h.begun u d hd
  · rcases hnew hd with rfl | hd
    · cases hst
    · exact h.starting u d hd hst
  · refine ⟨(h.quiet h0).1, fun u d hd hpub => ?_⟩
    rcases hnew hd with rfl | hd
    · cases hpub
    · exact (h.quiet h0).2 u d hd hpub
  · obtain ⟨o, c, ho, howned, hothers⟩ := h.pending hne
    have hot : o ≠ t := by
      rintro rfl
      rw [hcall] at ho
      cases ho
    refine ⟨o, c, call_setCall.2 (Or.inr ⟨hot, ho⟩), ⟨howned.published, howned.buffer, howned.cursor,
      howned.fits, howned.place⟩, fun u d huo hd hpub => ?_⟩
    rcases hnew hd with rfl | hd
    · cases hpub
    · exact hothers u d huo hd hpub

/-- Two calls are not in the section at once. -/
theorem Inv.unique (h : s.Inv) (hcall : s.call t = some c) (hin : c.stage.inSection = true)
    (hd : s.call u = some d) (hin' : d.stage.inSection = true) : u = t :=
  Option.some.inj ((h.mutex u d hd hin').symm.trans (h.mutex t c hcall hin))

/-- A call goes on in the section. -/
theorem Inv.mutex_goto (h : s.Inv) (hcall : s.call t = some c) (hin : c.stage.inSection = true)
    (hd : (s.goto t c stage).call u = some d) (hin' : d.stage.inSection = true) :
    s.ttyLock = some u := by
  rcases call_goto hd with ⟨rfl, -⟩ | ⟨-, hd⟩
  · exact h.mutex u c hcall hin
  · exact h.mutex u d hd hin'

theorem Inv.begun_goto (h : s.Inv) (hcall : s.call t = some c)
    (hstage : stage.published = false → c.stage.published = false)
    (hd : (s.goto t c stage).call u = some d) :
    d.buffer ≠ 0 ∧ Typed d s.memory 0 ∧ (d.stage.published = false → d.ended = none) := by
  rcases call_goto hd with ⟨rfl, rfl⟩ | ⟨-, hd⟩
  · obtain ⟨hb, htyped, hended⟩ := h.begun u c hcall
    exact ⟨hb, htyped, fun hpub => hended (hstage hpub)⟩
  · exact h.begun u d hd

theorem Inv.quiet_goto (h : s.Inv) (hcall : s.call t = some c)
    (hstage : stage.published = true → c.stage.published = true) (hzero : s.tty.readBuffer = 0) :
    s.terminal.active = false ∧
      ∀ u d, (s.goto t c stage).call u = some d → d.stage.published = true → d.Filled := by
  obtain ⟨hidle, hfilled⟩ := h.quiet hzero
  refine ⟨hidle, fun u d hd hpub => ?_⟩
  rcases call_goto hd with ⟨rfl, rfl⟩ | ⟨-, hd⟩
  · exact hfilled u c hcall (hstage hpub)
  · exact hfilled u d hd hpub

/-- A step of a reader that stores nothing: to or from the section. -/
theorem Inv.move (h : s.Inv) (hcall : s.call t = some c)
    (hpublished : stage.published = c.stage.published) (hbuffer : stage ≠ .buffer)
    (hlength : c.stage ≠ .length ∧ stage ≠ .length)
    (hlock : stage.inSection = true → l = some t)
    (hothers : ∀ u d, u ≠ t → s.call u = some d → d.stage.inSection = true → l = some u) :
    Inv { s.goto t c stage with ttyLock := l } := by
  refine ⟨fun u d hd hin => ?_, fun u d hd => h.begun_goto hcall (fun hpub => hpublished ▸ hpub) hd,
    fun u d hd hst => ?_, h.quiet_goto hcall fun hpub => hpublished ▸ hpub, fun hne => ?_⟩
  · rcases call_goto hd with ⟨rfl, rfl⟩ | ⟨hut, hd⟩
    · exact hlock hin
    · exact hothers u d hut hd hin
  · rcases call_goto hd with ⟨rfl, rfl⟩ | ⟨hut, hd⟩
    · exact absurd hst hbuffer
    · exact h.starting u d hd hst
  · obtain ⟨o, c₀, ho, howned, hsettled⟩ := h.pending hne
    by_cases hot : o = t
    · subst hot
      obtain rfl := Option.some.inj (ho.symm.trans hcall)
      refine ⟨o, { c₀ with stage := stage }, call_setCall.2 (Or.inl ⟨rfl, rfl⟩),
        ⟨hpublished.trans howned.published, howned.buffer, howned.cursor, ?_, howned.place⟩, ?_⟩
      · exact Or.inr (howned.fits.resolve_left hlength.1)
      · intro u d huo hd hpub
        exact hsettled u d huo ((call_goto hd).resolve_left fun ⟨hut, _⟩ => huo hut).2 hpub
    · refine ⟨o, c₀, call_setCall.2 (Or.inr ⟨hot, ho⟩), ⟨howned.published, howned.buffer,
        howned.cursor, howned.fits, howned.place⟩, fun u d huo hd hpub => ?_⟩
      rcases call_goto hd with ⟨rfl, rfl⟩ | ⟨-, hd⟩
      · exact ⟨(hsettled u c huo hcall (hpublished ▸ hpub)).1, hlength.2⟩
      · exact hsettled u d huo hd hpub

/-- The cursor is reset. -/
theorem Inv.cursor (h : s.Inv) (hcall : s.call t = some c) (hstage : c.stage = .cursor)
    (hzero : s.tty.readBuffer = 0) : Inv { s.goto t c .buffer with tty.readCursor := 0 } :=
  ⟨fun _ _ => h.mutex_goto hcall (hstage ▸ rfl),
    fun _ _ => h.begun_goto hcall fun _ => hstage ▸ rfl, fun _ _ _ _ => ⟨hzero, rfl⟩,
    h.quiet_goto hcall (fun hpub => by cases hpub), fun hne => absurd hzero hne⟩

theorem atPlace_inactive (hactive : s.terminal.active = false) :
    s.AtPlace c ↔ c.ended = none ∧ Typed c s.memory s.tty.readCursor.toNat := by
  unfold AtPlace
  cases hp : s.terminal <;> simp_all [Place.active]

/-- The buffer is published. -/
theorem Inv.publish (h : s.Inv) (hcall : s.call t = some c) (hstage : c.stage = .buffer) :
    Inv { s.goto t c .length with tty.readBuffer := c.buffer } := by
  have hin : c.stage.inSection = true := hstage ▸ rfl
  obtain ⟨hzero, hcursor⟩ := h.starting t c hcall hstage
  obtain ⟨hidle, hfilled⟩ := h.quiet hzero
  obtain ⟨hb, htyped, hended⟩ := h.begun t c hcall
  refine ⟨fun _ _ => h.mutex_goto hcall hin, fun _ _ => h.begun_goto hcall (fun hpub => by cases hpub),
    fun u d hd hst => ?_, fun h0 => absurd h0 hb,
    fun _ => ⟨t, { c with stage := .length }, call_setCall.2 (Or.inl ⟨rfl, rfl⟩), ?_,
      fun u d hut hd hpub => ?_⟩⟩
  · rcases call_goto hd with ⟨rfl, rfl⟩ | ⟨hut, hd⟩
    · cases hst
    · exact absurd (h.unique hcall hin hd (hst ▸ rfl)) hut
  · refine ⟨rfl, rfl, ?_, Or.inl rfl, (atPlace_inactive hidle).2 ⟨hended (hstage ▸ rfl), ?_⟩⟩
    · show s.tty.readCursor ≤ c.length
      rw [hcursor]
      exact UInt64.zero_le
    · show Typed c s.memory s.tty.readCursor.toNat
      rw [hcursor]
      exact htyped
  · have hd' := ((call_goto hd).resolve_left fun ⟨hut', _⟩ => hut hut').2
    exact ⟨hfilled u d hd' hpub, fun hlen => hut (h.unique hcall hin hd' (hlen ▸ rfl))⟩

/-- The length follows. -/
theorem Inv.lengthen (h : s.Inv) (hcall : s.call t = some c) (hstage : c.stage = .length) :
    Inv { s.goto t c .unlock with tty.readLength := c.length } := by
  have hpublished : c.stage.published = true := hstage ▸ rfl
  refine ⟨fun _ _ => h.mutex_goto hcall (hstage ▸ rfl),
    fun _ _ => h.begun_goto hcall (fun hpub => by cases hpub), fun u d hd hst => ?_,
    h.quiet_goto hcall fun _ => hpublished, fun hne => ?_⟩
  · rcases call_goto hd with ⟨rfl, rfl⟩ | ⟨-, hd⟩
    · cases hst
    · exact h.starting u d hd hst
  · obtain ⟨o, c₀, ho, howned, hsettled⟩ := h.pending hne
    -- The missing length is that of the call whose buffer is there.
    obtain rfl : o = t := by
      by_contra hot
      exact (hsettled t c (Ne.symm hot) hcall hpublished).2 hstage
    obtain rfl := Option.some.inj (ho.symm.trans hcall)
    refine ⟨o, { c₀ with stage := .unlock }, call_setCall.2 (Or.inl ⟨rfl, rfl⟩),
      ⟨rfl, howned.buffer, howned.cursor, Or.inr rfl, howned.place⟩, fun u d huo hd hpub => ?_⟩
    exact hsettled u d huo ((call_goto hd).resolve_left fun ⟨hut, _⟩ => huo hut).2 hpub

/-- A call returns. -/
theorem Inv.leave (h : s.Inv) (hzero : s.tty.readBuffer = 0) : (s.setCall t none).Inv := by
  have hkept : ∀ {u d}, (s.setCall t none).call u = some d → s.call u = some d := fun hd =>
    (call_setCall.1 hd).elim (fun hd => nomatch hd.2) And.right
  exact ⟨fun u d hd => h.mutex u d (hkept hd), fun u d hd => h.begun u d (hkept hd),
    fun u d hd => h.starting u d (hkept hd),
    fun h0 => ⟨(h.quiet h0).1, fun u d hd => (h.quiet h0).2 u d (hkept hd)⟩,
    fun hne => absurd hzero hne⟩

/-! ### Steps of the terminal thread -/

variable {p : Place} {n : UInt64}

theorem Inv.buffer_ne_zero (h : s.Inv) (hactive : s.terminal.active = true) : s.tty.readBuffer ≠ 0 :=
  fun h0 => by rw [(h.quiet h0).1] at hactive; cases hactive

/-- The terminal thread takes a key, or finds no request. -/
theorem Inv.idle (h : s.Inv) (hidle : s.terminal.active = false) (hp : p.active = false) :
    Inv { s with terminal := p } := by
  refine ⟨h.mutex, h.begun, h.starting, fun h0 => ⟨hp, (h.quiet h0).2⟩, fun hne => ?_⟩
  obtain ⟨o, c, ho, howned, hothers⟩ := h.pending hne
  have hplace : AtPlace { s with terminal := p } c :=
    (atPlace_inactive hp).2 ((atPlace_inactive hidle).1 howned.place)
  exact ⟨o, c, ho, ⟨howned.published, howned.buffer, howned.cursor, howned.fits, hplace⟩, hothers⟩

/-- The terminal thread goes on with a request. -/
theorem Inv.type (h : s.Inv) (hne : s.tty.readBuffer ≠ 0)
    (hbegun : ∀ d, Typed d s.memory 0 → Typed d m 0)
    (howner : ∀ t c, s.call t = some c → s.Owned c → n ≤ c.length ∧
      AtPlace { s with tty.readCursor := n, memory := m, terminal := p } c) :
    Inv { s with tty.readCursor := n, memory := m, terminal := p } := by
  refine ⟨h.mutex, fun u d hd => ?_, fun u d hd hst => ?_, fun h0 => absurd h0 hne, fun _ => ?_⟩
  · obtain ⟨hb, htyped, hended⟩ := h.begun u d hd
    exact ⟨hb, hbegun d htyped, hended⟩
  · exact absurd (h.starting u d hd hst).1 hne
  · obtain ⟨o, c, ho, howned, hothers⟩ := h.pending hne
    obtain ⟨hcursor, hplace⟩ := howner o c ho howned
    exact ⟨o, c, ho, ⟨howned.published, howned.buffer, hcursor, howned.fits, hplace⟩, hothers⟩

/-- The test finds a request. -/
theorem Inv.test {e : KeyEvent} (h : s.Inv) (hp : s.terminal = .test e)
    (hne : s.tty.readBuffer ≠ 0) : Inv { s with terminal := .branch e } := by
  have hidle : s.terminal.active = false := hp ▸ rfl
  exact h.type (n := s.tty.readCursor) (m := s.memory) hne (fun _ => id) fun t c ht howned =>
    ⟨howned.cursor, (atPlace_inactive hidle).1 howned.place⟩

/-- The `switch`: when a character is taken, there is room for it in the buffer of the call. -/
theorem Inv.branch {e : KeyEvent} (h : s.Inv) (hp : s.terminal = .branch e)
    (hroom : (Reading.branch s.tty e).takes = true →
      ∀ t ∈ s.ttyLock, ∀ c ∈ s.call t, c.stage = .length → s.tty.readCursor < c.length) :
    Inv { s with terminal := Reading.branch s.tty e } := by
  have hactive : s.terminal.active = true := hp ▸ rfl
  refine h.type (n := s.tty.readCursor) (m := s.memory) (h.buffer_ne_zero hactive) (fun _ => id)
    fun t c ht howned => ⟨howned.cursor, ?_⟩
  have htyped : c.ended = none ∧ Typed c s.memory s.tty.readCursor.toNat := by
    have hplace := howned.place
    unfold AtPlace at hplace
    rwa [hp] at hplace
  have hroom' : (Reading.branch s.tty e).takes = true →
      s.tty.readCursor < s.tty.readLength → s.tty.readCursor < c.length := by
    intro htakes hlt
    rcases howned.fits with hst | hlength
    · exact hroom htakes t (h.mutex t c ht (hst ▸ rfl)) c ht hst
    · exact hlength ▸ hlt
  unfold Reading.branch at hroom' ⊢
  cases hkey : e.key with
  | backspace =>
    dsimp only
    by_cases hlast : e.pressed ∧ 0 < s.tty.readCursor
    · rw [if_pos hlast]
      exact ⟨htyped.1, htyped.2, hlast.2⟩
    · rw [if_neg hlast]
      exact htyped
  | enter =>
    cases e.pressed with
    | false => exact htyped
    | true => exact htyped
  | other character =>
    rw [hkey] at hroom'
    dsimp only at hroom' ⊢
    by_cases hlt : e.pressed ∧ s.tty.readCursor < s.tty.readLength
    · by_cases hchar : character ≠ 0
      · rw [if_pos hlt, if_pos hchar] at hroom' ⊢
        exact ⟨htyped.1, htyped.2, hchar, hroom' rfl hlt.2⟩
      · rw [if_pos hlt, if_neg hchar]
        exact htyped
    · rw [if_neg hlt]
      exact htyped

/-- The last character is taken back. -/
theorem Inv.stepBack (h : s.Inv) (hp : s.terminal = .stepBack) :
    Inv { s with tty.readCursor := s.tty.readCursor - 1, terminal := .idle } := by
  have hactive : s.terminal.active = true := hp ▸ rfl
  refine h.type (h.buffer_ne_zero hactive) (fun _ => id) fun t c _ howned => ?_
  have hplace := howned.place
  unfold AtPlace at hplace
  rw [hp] at hplace
  obtain ⟨hended, htyped, hpos⟩ := hplace
  have hback : (s.tty.readCursor - 1).toNat = s.tty.readCursor.toNat - 1 :=
    UInt64.toNat_sub_of_le _ _ (UInt64.le_iff_toNat_le.2 (UInt64.lt_iff_toNat_lt.1 hpos))
  refine ⟨?_, hended, ?_⟩
  · have hcursor := UInt64.le_iff_toNat_le.1 howned.cursor
    rw [UInt64.le_iff_toNat_le, hback]
    omega
  · show Typed c s.memory (s.tty.readCursor - 1).toNat
    rw [hback]
    exact htyped.mono (Nat.sub_le _ 1)

/-- The cursor passes the cell of the character. -/
theorem Inv.advanceCursor {character : UInt8} (h : s.Inv)
    (hp : s.terminal = .advanceCursor character) :
    Inv { s with
      tty.readCursor := s.tty.readCursor + 1
      terminal := .storeCharacter character s.address } := by
  have hactive : s.terminal.active = true := hp ▸ rfl
  refine h.type (h.buffer_ne_zero hactive) (fun _ => id) fun t c _ howned => ?_
  have hplace := howned.place
  unfold AtPlace at hplace
  rw [hp] at hplace
  obtain ⟨hended, htyped, hchar, hroom⟩ := hplace
  have hlt : s.tty.readCursor.toNat < c.length.toNat :=
    UInt64.lt_iff_toNat_lt.1 hroom
  have hnext : (s.tty.readCursor + 1).toNat = s.tty.readCursor.toNat + 1 := by
    have := c.length.toNat_lt
    rw [UInt64.toNat_add, UInt64.toNat_one, Nat.mod_eq_of_lt (by omega)]
  refine ⟨?_, hended, hchar, s.tty.readCursor.toNat, hnext, ?_, htyped⟩
  · rw [UInt64.le_iff_toNat_le, hnext]
    exact hlt
  · rw [address, howned.buffer]

/-- The character is stored. -/
theorem Inv.storeCharacter {character : UInt8} {a : ℕ} (h : s.Inv)
    (hp : s.terminal = .storeCharacter character a) :
    Inv { s with memory := s.memory.store a character, terminal := .idle } := by
  have hactive : s.terminal.active = true := hp ▸ rfl
  refine h.type (n := s.tty.readCursor) (h.buffer_ne_zero hactive)
    (fun d htyped => htyped.begun_store a character) fun t c _ howned => ⟨howned.cursor, ?_⟩
  have hplace := howned.place
  unfold AtPlace at hplace
  rw [hp] at hplace
  obtain ⟨hended, hchar, k, hcursor, ha, htyped⟩ := hplace
  refine ⟨hended, ?_⟩
  show Typed c (s.memory.store a character) s.tty.readCursor.toNat
  rw [hcursor]
  exact htyped.store ha hchar

@[simp] theorem finish_stage (b : UInt64) : (c.finish b m).stage = c.stage := by
  unfold Call.finish
  split_ifs <;> rfl

@[simp] theorem finish_buffer (b : UInt64) : (c.finish b m).buffer = c.buffer := by
  unfold Call.finish
  split_ifs <;> rfl

@[simp] theorem finish_length (b : UInt64) : (c.finish b m).length = c.length := by
  unfold Call.finish
  split_ifs <;> rfl

@[simp] theorem finish_before (b : UInt64) : (c.finish b m).before = c.before := by
  unfold Call.finish
  split_ifs <;> rfl

/-- A call that has its line keeps it. -/
theorem Call.Filled.finish (h : c.Filled) (b : UInt64) : (c.finish b m).Filled := by
  obtain ⟨m₀, hm₀, hline⟩ := h
  have hended : c.ended.isNone = false := by
    rw [Option.mem_def.1 hm₀]
    rfl
  rw [Call.finish, if_neg fun hf => by rw [hended] at hf; cases hf.2.2]
  exact ⟨m₀, hm₀, hline⟩

/-- The terminator is stored: the line of the call whose buffer is there is complete. -/
theorem Inv.terminate (h : s.Inv) (hp : s.terminal = .terminate) :
    Inv { s with
      memory := s.memory.store s.address 0
      call := fun t => (s.call t).map (Call.finish s.tty.readBuffer (s.memory.store s.address 0))
      terminal := .release } := by
  have hactive : s.terminal.active = true := hp ▸ rfl
  have hne := h.buffer_ne_zero hactive
  refine ⟨fun u d hd hin => ?_, fun u d hd => ?_, fun u d hd hst => ?_, fun h0 => absurd h0 hne,
    fun _ => ?_⟩
  · obtain ⟨d₀, hd₀, rfl⟩ := Option.map_eq_some_iff.1 hd
    exact h.mutex u d₀ hd₀ (by rwa [finish_stage] at hin)
  · obtain ⟨d₀, hd₀, rfl⟩ := Option.map_eq_some_iff.1 hd
    obtain ⟨hb, htyped, hended⟩ := h.begun u d₀ hd₀
    refine ⟨by rwa [finish_buffer], ?_, fun hpub => ?_⟩
    · obtain ⟨new, hnew, -⟩ := htyped.begun_store s.address 0
      exact ⟨new, by rwa [finish_before], fun i hi => absurd hi (Nat.not_lt_zero i)⟩
    · rw [finish_stage] at hpub
      rw [Call.finish, if_neg fun hf => by rw [hf.1] at hpub; cases hpub]
      exact hended hpub
  · obtain ⟨d₀, hd₀, rfl⟩ := Option.map_eq_some_iff.1 hd
    exact absurd (h.starting u d₀ hd₀ (by rwa [finish_stage] at hst)).1 hne
  · obtain ⟨o, c, ho, howned, hothers⟩ := h.pending hne
    have hplace := howned.place
    unfold AtPlace at hplace
    rw [hp] at hplace
    obtain ⟨hended, htyped⟩ := hplace
    have hline : Line c (s.memory.store s.address 0) s.tty.readCursor.toNat := by
      have haddress : s.address = c.buffer.toNat + s.tty.readCursor.toNat := by
        rw [address, howned.buffer]
      rw [haddress]
      exact htyped.line
    have hfilled : (c.finish s.tty.readBuffer (s.memory.store s.address 0)).Filled := by
      rw [Call.finish, if_pos ⟨howned.published, howned.buffer.symm, by rw [hended]; rfl⟩]
      exact ⟨_, rfl, s.tty.readCursor.toNat, UInt64.le_iff_toNat_le.1 howned.cursor, hline⟩
    refine ⟨o, _, Option.map_eq_some_iff.2 ⟨c, ho, rfl⟩, ⟨?_, ?_, ?_, ?_, hfilled⟩,
      fun u d huo hd hpub => ?_⟩
    · rw [finish_stage]
      exact howned.published
    · rw [finish_buffer]
      exact howned.buffer
    · rw [finish_length]
      exact howned.cursor
    · rw [finish_stage, finish_length]
      exact howned.fits
    · obtain ⟨d₀, hd₀, rfl⟩ := Option.map_eq_some_iff.1 hd
      rw [finish_stage] at hpub ⊢
      obtain ⟨hfilled', hlength⟩ := hothers u d₀ huo hd₀ hpub
      exact ⟨hfilled'.finish _, hlength⟩

/-- The request is taken off. -/
theorem Inv.release (h : s.Inv) (hp : s.terminal = .release) :
    Inv { s with tty.readBuffer := 0, terminal := .idle } := by
  have hactive : s.terminal.active = true := hp ▸ rfl
  have hne := h.buffer_ne_zero hactive
  refine ⟨h.mutex, h.begun, fun u d hd hst => absurd (h.starting u d hd hst).1 hne,
    fun _ => ⟨rfl, fun u d hd hpub => ?_⟩, fun hzero => absurd rfl hzero⟩
  obtain ⟨o, c, ho, howned, hothers⟩ := h.pending hne
  by_cases huo : u = o
  · subst huo
    obtain rfl := Option.some.inj (hd.symm.trans ho)
    have hplace := howned.place
    unfold AtPlace at hplace
    rwa [hp] at hplace
  · exact (hothers u d huo hd hpub).1

/-! ### Runs -/

/-- A buffer is not null, a call overwrites no request, and the terminal thread takes no character
that the length of the call leaves no room for, when that length is still to be stored. -/
def Proper (s : Reading) : Event → Prop
  | .read _ buffer _ => buffer ≠ 0
  | .thread t => ∀ c ∈ s.call t, c.stage = .cursor → s.tty.readBuffer = 0
  | .key _ => True
  | .terminal =>
    match s.terminal with
    | .branch e =>
      (Reading.branch s.tty e).takes = true →
        ∀ t ∈ s.ttyLock, ∀ c ∈ s.call t, c.stage = .length → s.tty.readCursor < c.length
    | _ => True

instance (s : Reading) : ∀ e, Decidable (s.Proper e)
  | .read _ buffer _ => inferInstanceAs (Decidable (buffer ≠ 0))
  | .thread t =>
    inferInstanceAs (Decidable (∀ c ∈ s.call t, c.stage = .cursor → s.tty.readBuffer = 0))
  | .key _ => isTrue trivial
  | .terminal => by
    unfold Proper
    dsimp only
    split <;> infer_instance

/-- The address of the store that is the terminal thread's next step. -/
def nextStore (s : Reading) : Option ℕ :=
  match s.terminal with
  | .terminate => some s.address
  | .storeCharacter _ a => some a
  | _ => none

theorem inv_thread (h : s.Inv) (hcall : s.call t = some c)
    (hC : c.stage = .cursor → s.tty.readBuffer = 0) : (s.readStep t c).Inv := by
  unfold readStep
  cases hstage : c.stage with
  | lock =>
    dsimp only
    cases hlock : s.ttyLock with
    | some u => exact h
    | none =>
      refine h.move hcall (hstage ▸ rfl) (by simp) (by simp [hstage]) (fun _ => rfl)
        fun u d _ hd hin => ?_
      have := h.mutex u d hd hin
      rw [hlock] at this
      cases this
  | cursor => exact h.cursor hcall hstage (hC hstage)
  | buffer => exact h.publish hcall hstage
  | length => exact h.lengthen hcall hstage
  | unlock =>
    refine h.move hcall (hstage ▸ rfl) (by simp) (by simp [hstage]) (fun hin => by cases hin)
      fun u d hut hd hin => ?_
    exact absurd (h.unique hcall (hstage ▸ rfl) hd hin) hut
  | waiting =>
    dsimp only
    split_ifs with hzero
    · exact h
    · exact h.leave (not_not.1 hzero)

theorem inv_terminal (h : s.Inv) (hC : s.Proper .terminal) (hstep : s.terminalStep = some s') :
    s'.Inv := by
  unfold terminalStep at hstep
  unfold Proper at hC
  cases hp : s.terminal with
  | idle => rw [hp] at hstep; cases hstep
  | test e =>
    rw [hp] at hstep
    obtain rfl := Option.some.inj hstep
    by_cases hne : s.tty.readBuffer ≠ 0
    · rw [if_pos hne]
      exact h.test hp hne
    · rw [if_neg hne]
      exact h.idle (hp ▸ rfl) rfl
  | branch e =>
    rw [hp] at hstep hC
    obtain rfl := Option.some.inj hstep
    exact h.branch hp hC
  | stepBack =>
    rw [hp] at hstep
    obtain rfl := Option.some.inj hstep
    exact h.stepBack hp
  | advanceCursor character =>
    rw [hp] at hstep
    obtain rfl := Option.some.inj hstep
    exact h.advanceCursor hp
  | storeCharacter character a =>
    rw [hp] at hstep
    obtain rfl := Option.some.inj hstep
    exact h.storeCharacter hp
  | terminate =>
    rw [hp] at hstep
    obtain rfl := Option.some.inj hstep
    exact h.terminate hp
  | release =>
    rw [hp] at hstep
    obtain rfl := Option.some.inj hstep
    exact h.release hp

theorem inv_step {e : Event} (h : s.Inv) (hC : s.Proper e) (hstep : s.step e = some s') : s'.Inv := by
  cases e with
  | read t buffer length =>
    cases hcall : s.call t with
    | some c =>
      simp only [step, hcall] at hstep
      cases hstep
    | none =>
      simp only [step, hcall] at hstep
      obtain rfl := Option.some.inj hstep
      exact h.read hcall hC length
  | thread t =>
    obtain ⟨c, hcall, rfl⟩ := Option.map_eq_some_iff.1 hstep
    exact inv_thread h hcall (hC c hcall)
  | key e =>
    simp only [step] at hstep
    split_ifs at hstep with hidle
    obtain rfl := Option.some.inj hstep
    exact h.idle (hidle ▸ rfl) rfl
  | terminal => exact inv_terminal h hC hstep

/-- Each store is into the buffer of a call, at most at its length. -/
theorem Inv.nextStore (h : s.Inv) {a : ℕ} (ha : a ∈ s.nextStore) :
    ∃ t c i, s.call t = some c ∧ s.tty.readBuffer = c.buffer ∧ i ≤ c.length.toNat ∧
      a = c.buffer.toNat + i := by
  have hactive : s.terminal.active = true := by
    unfold Reading.nextStore at ha
    cases hp : s.terminal <;> simp_all [Place.active]
  obtain ⟨t, c, hcall, howned, -⟩ := h.pending (h.buffer_ne_zero hactive)
  have hcursor := UInt64.le_iff_toNat_le.1 howned.cursor
  have hplace := howned.place
  unfold AtPlace at hplace
  unfold Reading.nextStore at ha
  cases hp : s.terminal with
  | terminate =>
    rw [hp] at ha
    refine ⟨t, c, s.tty.readCursor.toNat, hcall, howned.buffer, hcursor, ?_⟩
    rw [← Option.some.inj ha, address, howned.buffer]
  | storeCharacter character a' =>
    rw [hp] at ha hplace
    obtain ⟨-, -, k, hk, ha', -⟩ := hplace
    exact ⟨t, c, k, hcall, howned.buffer, by omega, (Option.some.inj ha).symm.trans ha'⟩
  | _ => rw [hp] at ha; cases ha

/-- No call is in progress. -/
structure Started (s : Reading) : Prop where
  call : ∀ t, s.call t = none
  terminal : s.terminal = .idle
  readBuffer : s.tty.readBuffer = 0

theorem Started.inv (h : s.Started) : s.Inv := by
  have hnone : ∀ {t c}, s.call t ≠ some c := fun {t c} hc => by rw [h.call t] at hc; cases hc
  exact ⟨fun t c hc => absurd hc hnone, fun t c hc => absurd hc hnone, fun t c hc => absurd hc hnone,
    fun _ => ⟨by rw [h.terminal]; rfl, fun t c hc => absurd hc hnone⟩,
    fun hne => absurd h.readBuffer hne⟩

/-- **Concurrent reads.** In a run in which no call overwrites a request and no character is taken by
the length of an earlier call, nothing is stored behind the terminator's place, and a call that finds
`readBuffer` null has had its own buffer filled with a line. -/
theorem reads_of_run {events : List Event} (hstart : s.Started)
    (hC : Trace.Along step Proper s events) (hrun : Trace.run step s events = some s') :
    (∀ a ∈ s'.nextStore, ∃ t c i, s'.call t = some c ∧ s'.tty.readBuffer = c.buffer ∧
        i ≤ c.length.toNat ∧ a = c.buffer.toNat + i) ∧
      ∀ t c, s'.call t = some c → c.stage = .waiting → s'.tty.readBuffer = 0 → c.Filled := by
  have h : s'.Inv :=
    Trace.run_invariant_along (fun s e s' h hC hstep => inv_step h hC hstep) hstart.inv hC hrun
  exact ⟨fun a ha => h.nextStore ha, fun t c hc hst hzero => (h.quiet hzero).2 t c hc (hst ▸ rfl)⟩

/-- Before the first call. -/
def boot : Reading where
  tty := ⟨0, 0, 0, 0, 0, ⟨fun _ => 0, []⟩⟩
  ttyLock := none
  memory := ⟨fun _ => 0, []⟩
  call := fun _ => none
  terminal := .idle

theorem started_boot : boot.Started := ⟨fun _ => rfl, rfl, rfl⟩

/-- A call up to its loop. -/
def request (t : ℕ) (buffer length : UInt64) : List Event :=
  .read t buffer length :: List.replicate 5 (.thread t)

/-- A key of a character or of the end of the line. -/
def press (key : Key) : List Event := .key ⟨key, true⟩ :: List.replicate 4 .terminal

theorem reads_of_run_line :
    ∃ s c, Trace.run step boot (request 1 100 2 ++ press (.other 97) ++ press .enter) = some s ∧
      s.call 1 = some c ∧ c.stage = .waiting ∧ s.tty.readBuffer = 0 ∧ c.Filled := by
  have hC : Trace.Along step Proper boot
      (request 1 100 2 ++ press (.other 97) ++ press .enter) := by decide
  obtain ⟨s, c, hrun, hcall, hstage, hzero⟩ : ∃ s c,
      Trace.run step boot (request 1 100 2 ++ press (.other 97) ++ press .enter) = some s ∧
        s.call 1 = some c ∧ c.stage = .waiting ∧ s.tty.readBuffer = 0 :=
    ⟨_, _, rfl, rfl, rfl, rfl⟩
  exact ⟨s, c, hrun, hcall, hstage, hzero,
    (reads_of_run started_boot hC hrun).2 1 c hcall hstage hzero⟩

/-- A call with length 3 is served, and a call with length 1 is interrupted before it stores its
length: the third character goes to index 2 of its buffer. -/
theorem stale_length_overruns :
    ∃ events s c i, Trace.run step boot events = some s ∧ s.call 1 = some c ∧
      s.tty.readBuffer = c.buffer ∧ c.length.toNat < i ∧ c.buffer.toNat + i ∈ s.nextStore := by
  refine ⟨request 1 100 3 ++ press .enter ++ [.thread 1] ++
    [.read 1 200 1, .thread 1, .thread 1, .thread 1] ++ press (.other 97) ++ press (.other 97) ++
    [.key ⟨.other 97, true⟩, .terminal, .terminal, .terminal], _, _, 2, rfl, rfl, rfl, ?_, ?_⟩
  · decide
  · decide

/-- The request of a second call replaces that of a first one, which returns when the second has its
line: nothing has been stored into its own buffer. -/
theorem overlapping_call_unfilled :
    ∃ s c, Trace.run step boot (request 1 100 3 ++ request 2 200 3 ++ press .enter) = some s ∧
      s.call 1 = some c ∧ c.stage = .waiting ∧ s.tty.readBuffer = 0 ∧ ¬ c.Filled := by
  refine ⟨_, _, rfl, rfl, rfl, rfl, ?_⟩
  rintro ⟨m, hm, -⟩
  cases hm

end Reading

end Naul
