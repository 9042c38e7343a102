import Mathlib.Data.List.Nodup
import Mathlib.Tactic

/-!
# Trees of files

`FileTree ν γ` is what is in a folder: files with contents in `γ` and folders, with names in `ν`, in some
order. A node below the root has as its path the names on the way to it.

`nodes` lists the nodes, those in a folder before the folder itself, as a walk lists them that reports a
folder when it comes back from it. `mem_nodes` says that these are the nodes of the tree (`Has`), and
`nodup_paths` that with distinct names in every folder each is listed once.
-/

/-- The entries of a folder, in order. -/
inductive FileTree (ν γ : Type*)
  | empty
  | file (name : ν) (contents : γ) (rest : FileTree ν γ)
  | folder (name : ν) (entries rest : FileTree ν γ)

namespace FileTree

variable {ν γ : Type*}

/-- The node at a path: a file with its contents, or a folder. -/
inductive Has : FileTree ν γ → List ν → Option γ → Prop
  | file {n : ν} {c : γ} {rest : FileTree ν γ} : Has (.file n c rest) [n] (some c)
  | folder {n : ν} {es rest : FileTree ν γ} : Has (.folder n es rest) [n] none
  | inside {n : ν} {es rest : FileTree ν γ} {p : List ν} {c : Option γ} (h : Has es p c) :
      Has (.folder n es rest) (n :: p) c
  | afterFile {n : ν} {c' : γ} {rest : FileTree ν γ} {p : List ν} {c : Option γ} (h : Has rest p c) :
      Has (.file n c' rest) p c
  | afterFolder {n : ν} {es rest : FileTree ν γ} {p : List ν} {c : Option γ} (h : Has rest p c) :
      Has (.folder n es rest) p c

/-- The nodes with their paths, those in a folder before the folder. -/
def nodes : FileTree ν γ → List (List ν × Option γ)
  | empty => []
  | file n c rest => ([n], some c) :: rest.nodes
  | folder n es rest => (es.nodes.map fun x => (n :: x.1, x.2)) ++ ([n], none) :: rest.nodes

/-- The names of the entries. -/
def names : FileTree ν γ → List ν
  | empty => []
  | file n _ rest | folder n _ rest => n :: rest.names

/-- Every name in the tree has the property. -/
def AllNames (P : ν → Prop) : FileTree ν γ → Prop
  | empty => True
  | file n _ rest => P n ∧ rest.AllNames P
  | folder n es rest => P n ∧ es.AllNames P ∧ rest.AllNames P

/-- In every folder the names are distinct. -/
def Distinct : FileTree ν γ → Prop
  | empty => True
  | file n _ rest => n ∉ rest.names ∧ rest.Distinct
  | folder n es rest => n ∉ rest.names ∧ es.Distinct ∧ rest.Distinct

variable {t : FileTree ν γ} {p : List ν} {c : Option γ}

/-- **The nodes are listed.** -/
theorem mem_nodes : (p, c) ∈ t.nodes ↔ t.Has p c := by
  constructor
  · intro h
    induction t generalizing p c with
    | empty => cases h
    | file n c' rest ih =>
      rcases List.mem_cons.1 h with heq | h
      · cases heq
        exact .file
      · exact .afterFile (ih h)
    | folder n es rest ihes ihrest =>
      rcases List.mem_append.1 h with h | h
      · obtain ⟨x, hx, heq⟩ := List.mem_map.1 h
        cases heq
        exact .inside (ihes hx)
      · rcases List.mem_cons.1 h with heq | h
        · cases heq
          exact .folder
        · exact .afterFolder (ihrest h)
  · intro h
    induction h with
    | file => exact List.mem_cons_self
    | folder => exact List.mem_append_right _ List.mem_cons_self
    | inside _ ih => exact List.mem_append_left _ (List.mem_map.2 ⟨_, ih, rfl⟩)
    | afterFile _ ih => exact List.mem_cons_of_mem _ ih
    | afterFolder _ ih => exact List.mem_append_right _ (List.mem_cons_of_mem _ ih)

/-- A path begins with the name of an entry. -/
theorem Has.exists_cons (h : t.Has p c) : ∃ n ∈ t.names, ∃ q, p = n :: q := by
  induction h with
  | file => exact ⟨_, List.mem_cons_self, [], rfl⟩
  | folder => exact ⟨_, List.mem_cons_self, [], rfl⟩
  | inside _ _ => exact ⟨_, List.mem_cons_self, _, rfl⟩
  | afterFile _ ih | afterFolder _ ih =>
    obtain ⟨n, hn, q, hq⟩ := ih
    exact ⟨n, List.mem_cons_of_mem _ hn, q, hq⟩

theorem Has.allNames {P : ν → Prop} (h : t.Has p c) (ht : t.AllNames P) : ∀ n ∈ p, P n := by
  induction h with
  | file | folder =>
    intro m hm
    rw [List.mem_singleton] at hm
    exact hm ▸ ht.1
  | inside _ ih =>
    intro m hm
    rcases List.mem_cons.1 hm with rfl | hm
    · exact ht.1
    · exact ih ht.2.1 m hm
  | afterFile _ ih => exact ih ht.2
  | afterFolder _ ih => exact ih ht.2.2

/-- A path of the tree begins with none of the names that are not there. -/
theorem notMem_paths {n : ν} (hn : n ∉ t.names) (q : List ν) : n :: q ∉ t.nodes.map Prod.fst := by
  intro hmem
  obtain ⟨⟨p, c⟩, hx, hp⟩ := List.mem_map.1 hmem
  obtain ⟨m, hm, r, hr⟩ := (mem_nodes.1 hx).exists_cons
  rw [hr] at hp
  cases hp
  exact hn hm

/-- **Each node is listed once.** -/
theorem nodup_paths (h : t.Distinct) : (t.nodes.map Prod.fst).Nodup := by
  induction t with
  | empty => exact List.nodup_nil
  | file n c rest ih =>
    rw [nodes, List.map_cons, List.nodup_cons]
    exact ⟨notMem_paths h.1 [], ih h.2⟩
  | folder n es rest ihes ihrest =>
    obtain ⟨hn, hes, hrest⟩ := h
    have hinside : (es.nodes.map fun x => (n :: x.1, x.2)).map Prod.fst =
        (es.nodes.map Prod.fst).map (List.cons n) := by
      rw [List.map_map, List.map_map]
      rfl
    rw [nodes, List.map_append, List.map_cons, hinside, List.nodup_append, List.nodup_cons]
    refine ⟨(ihes hes).map List.cons_injective, ⟨notMem_paths hn [], ihrest hrest⟩, ?_⟩
    intro p hp q hq hpq
    subst hpq
    obtain ⟨r, hr, rfl⟩ := List.mem_map.1 hp
    rcases List.mem_cons.1 hq with heq | hq
    · -- a node in the folder is not the folder
      obtain ⟨⟨s, c⟩, hx, rfl⟩ := List.mem_map.1 hr
      obtain ⟨m, -, u, hu⟩ := (mem_nodes.1 hx).exists_cons
      rw [hu] at heq
      cases heq
    · exact notMem_paths hn r hq

end FileTree
