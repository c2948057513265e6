/-! Dotted names of columns. Taking a path apart at its dots and joining the parts again gives the path
back, and so does joining parts without dots and taking them apart. -/

namespace QueryClauses.Path

/-- The parts between the dots, of which there is always at least one. -/
def segments (path : String) : List String :=
  (path.toList.splitOn '.').map String.ofList

def ofSegments (names : List String) : String :=
  ".".intercalate names

theorem segments_ne_nil (path : String) : segments path ≠ [] := by
  simp [segments, List.splitOn_ne_nil]

theorem segments_empty : segments "" = [""] := by decide +kernel

theorem ofSegments_singleton (name : String) : ofSegments [name] = name := by
  simp [ofSegments]

theorem ofSegments_segments (path : String) : ofSegments (segments path) = path := by
  apply String.toList_inj.1
  simp only [ofSegments, segments, String.toList_intercalate, List.map_map]
  have h : String.toList ∘ String.ofList = id := by funext l; simp
  rw [h, List.map_id]
  exact List.intercalate_splitOn '.'

theorem not_mem_of_mem_splitOn {c : Char} {part : List Char} :
    ∀ {cs : List Char}, part ∈ cs.splitOn c → c ∉ part
  | [], h => by
    rw [List.splitOn_nil, List.mem_singleton] at h
    simp [h]
  | d :: cs, h => by
    rw [List.splitOn_cons_eq_if_modifyHead] at h
    split at h
    · rcases List.mem_cons.1 h with rfl | h
      · exact List.not_mem_nil
      · exact not_mem_of_mem_splitOn h
    · next hd =>
      obtain ⟨head, tail, hs⟩ := List.exists_cons_of_ne_nil (List.splitOn_ne_nil c cs)
      rw [hs, List.modifyHead_cons] at h
      have hrest (part) (hp : part ∈ head :: tail) : c ∉ part := not_mem_of_mem_splitOn (hs ▸ hp)
      rcases List.mem_cons.1 h with rfl | h
      · rw [List.mem_cons, not_or]
        exact ⟨fun he => hd (beq_iff_eq.2 he.symm), hrest head List.mem_cons_self⟩
      · exact hrest part (List.mem_cons_of_mem _ h)

theorem dot_not_mem_of_mem_segments {path name : String} (h : name ∈ segments path) :
    '.' ∉ name.toList := by
  obtain ⟨part, hp, rfl⟩ := List.mem_map.1 h
  rw [String.toList_ofList]
  exact not_mem_of_mem_splitOn hp

theorem segments_ofSegments {names : List String} (hne : names ≠ [])
    (h : ∀ name ∈ names, '.' ∉ name.toList) : segments (ofSegments names) = names := by
  have hdot : ".".toList = ['.'] := rfl
  have hofList : String.ofList ∘ String.toList = id := by funext s; simp
  rw [segments, ofSegments, String.toList_intercalate, hdot, List.splitOn_intercalate, List.map_map,
    hofList, List.map_id]
  · intro part hp
    obtain ⟨name, hn, rfl⟩ := List.mem_map.1 hp
    exact h name hn
  · simpa using hne

theorem ofSegments_append {names more : List String} (hn : names ≠ []) (hm : more ≠ []) :
    ofSegments (names ++ more) = ofSegments names ++ "." ++ ofSegments more :=
  String.intercalate_append_of_ne_nil hn hm

/-- A dot between two paths is one more dot between their parts. -/
theorem segments_append (path rest : String) :
    segments (path ++ "." ++ rest) = segments path ++ segments rest := by
  have hjoin : ofSegments (segments path ++ segments rest) = path ++ "." ++ rest := by
    rw [ofSegments_append (segments_ne_nil path) (segments_ne_nil rest), ofSegments_segments,
      ofSegments_segments]
  rw [← hjoin]
  refine segments_ofSegments (by simp [segments_ne_nil]) fun name hn => ?_
  exact (List.mem_append.1 hn).elim dot_not_mem_of_mem_segments dot_not_mem_of_mem_segments

/-- The parts of a path that is joined from names, which need not be free of dots, are those of the names. -/
theorem mem_segments_ofSegments {names : List String} (hne : names ≠ []) {part : String} :
    part ∈ segments (ofSegments names) ↔ ∃ name ∈ names, part ∈ segments name := by
  induction names with
  | nil => exact absurd rfl hne
  | cons name names ih =>
    by_cases hnames : names = []
    · rw [hnames, ofSegments_singleton]
      simp
    · rw [← List.singleton_append, ofSegments_append (List.cons_ne_nil _ _) hnames, segments_append,
        List.mem_append, ih hnames, ofSegments_singleton]
      simp

end QueryClauses.Path
