/-! Sets of paths, kept in ascending order of their characters' code points, which is also the order
of their UTF-8 bytes. -/

namespace QueryClauses

structure PathSet where
  toList : List String
  ascending : toList.Pairwise (· < ·)
  deriving DecidableEq

namespace PathSet

def empty : PathSet := ⟨[], .nil⟩

instance : Membership String PathSet := ⟨fun s path => path ∈ s.toList⟩

instance (path : String) (s : PathSet) : Decidable (path ∈ s) :=
  inferInstanceAs (Decidable (path ∈ s.toList))

theorem mem_iff {path : String} {s : PathSet} : path ∈ s ↔ path ∈ s.toList := Iff.rfl

/-- The list with a path put in its place, once. -/
def place (path : String) : List String → List String
  | [] => [path]
  | p :: ps => if path < p then path :: p :: ps else if path = p then p :: ps else p :: place path ps

theorem mem_place {path q : String} {ps : List String} : q ∈ place path ps ↔ q = path ∨ q ∈ ps := by
  induction ps with
  | nil => simp [place]
  | cons p ps ih =>
    unfold place
    split
    · simp
    · split
      · next h => simp [h]
      · simp [ih, or_left_comm]

theorem place_ascending {path : String} {ps : List String} (h : ps.Pairwise (· < ·)) :
    (place path ps).Pairwise (· < ·) := by
  induction ps with
  | nil => simp [place]
  | cons p ps ih =>
    have ⟨below, rest⟩ := List.pairwise_cons.1 h
    unfold place
    split
    · next lt =>
      refine List.pairwise_cons.2 ⟨fun q hq => ?_, h⟩
      rcases List.mem_cons.1 hq with rfl | hq
      · exact lt
      · exact String.lt_trans lt (below q hq)
    · next nlt =>
      split
      · exact h
      · next ne =>
        refine List.pairwise_cons.2 ⟨fun q hq => ?_, ih rest⟩
        rcases mem_place.1 hq with rfl | hq
        · exact Decidable.byContradiction fun hp =>
            ne (String.le_antisymm (String.not_lt.1 hp) (String.not_lt.1 nlt))
        · exact below q hq

def insert (s : PathSet) (path : String) : PathSet := ⟨place path s.toList, place_ascending s.ascending⟩

def insertAll (s : PathSet) (paths : List String) : PathSet := paths.foldl insert s

def ofList (paths : List String) : PathSet := empty.insertAll paths

@[simp] theorem not_mem_empty (q : String) : q ∉ empty := by simp [mem_iff, empty]

@[simp] theorem mem_insert {s : PathSet} {path q : String} : q ∈ s.insert path ↔ q = path ∨ q ∈ s :=
  mem_place

@[simp] theorem mem_insertAll {s : PathSet} {paths : List String} {q : String} :
    q ∈ s.insertAll paths ↔ q ∈ paths ∨ q ∈ s := by
  induction paths generalizing s with
  | nil => simp [insertAll]
  | cons p ps ih =>
    show q ∈ (s.insert p).insertAll ps ↔ _
    rw [ih, mem_insert, List.mem_cons, or_assoc, or_left_comm]

@[simp] theorem mem_ofList {paths : List String} {q : String} : q ∈ ofList paths ↔ q ∈ paths := by
  simp [ofList]

end PathSet

end QueryClauses
