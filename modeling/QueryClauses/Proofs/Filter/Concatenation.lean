import QueryClauses.Proofs.Filter.Words

/-! Records one after the other. Their conditions follow each other, so the predicate of the whole is made
of those of the parts, and the first fault in it is that of the first part that has one. A field that is
skipped has no condition and is as good as not there. -/

namespace QueryClauses

theorem FieldOf.condition_eq_ok_none {f : Field} (h : f.isSkipped = true) : f.condition = .ok none := by
  rw [condition_eq]
  split
  · rfl
  · next hz =>
    have hempty : f.value.unwrapped = .list [] := by
      rw [isSkipped, Bool.eq_false_iff.2 hz, Bool.false_or] at h
      unfold Value.isEmptyList at h
      split at h
      · assumption
      · cases h
    rw [hempty]
    rfl

namespace Predicate

/-- Both are to hold. -/
def both (p q : Predicate) : Predicate :=
  ⟨if p.isEmpty then q.text else if q.isEmpty then p.text else p.text ++ " AND " ++ q.text,
    p.params ++ q.params⟩

theorem conditions_append (r s : Record) :
    conditions (r ++ s) = (do .ok ((← conditions r) ++ (← conditions s))) := by
  unfold conditions
  rw [List.mapM_append]
  cases r.mapM FieldOf.condition with
  | error e => rfl
  | ok as =>
    cases s.mapM FieldOf.condition with
    | error e => rfl
    | ok bs => exact congrArg Except.ok List.filterMap_append

/-- The conditions of a record are on columns that have names, if those of its fields have. -/
theorem column_ne_empty_of_mem_conditions {r : Record} {cs : List Condition} (h : ∀ f ∈ r, f.column ≠ "")
    (hr : conditions r = .ok cs) : ∀ c ∈ cs, c.column ≠ "" := by
  intro c hc
  obtain ⟨hok, rfl⟩ := conditions_eq_ok hr
  have hmem := List.mem_map_of_mem (f := Condition.column) hc
  rw [map_column_conditions hok] at hmem
  obtain ⟨f, hf, hcol⟩ := List.mem_map.1 hmem
  exact hcol ▸ h f (List.mem_of_mem_filter hf)

theorem isEmpty_ofConditions {cs : List Condition} (h : ∀ c ∈ cs, c.column ≠ "") :
    (ofConditions cs).isEmpty = cs.isEmpty := by
  cases cs with
  | nil => rfl
  | cons c cs =>
    have htext := text_ofConditions_ne_empty (List.cons_ne_nil c cs) h
    simpa [isEmpty] using htext

theorem ofConditions_append {cs ds : List Condition} (hcs : ∀ c ∈ cs, c.column ≠ "")
    (hds : ∀ d ∈ ds, d.column ≠ "") :
    ofConditions (cs ++ ds) = (ofConditions cs).both (ofConditions ds) := by
  rw [both, isEmpty_ofConditions hcs, isEmpty_ofConditions hds]
  cases cs with
  | nil => rfl
  | cons c cs =>
    cases ds with
    | nil => simp [ofConditions]
    | cons d ds =>
      have htext : (ofConditions (c :: cs ++ d :: ds)).text =
          (ofConditions (c :: cs)).text ++ " AND " ++ (ofConditions (d :: ds)).text := by
        simp only [ofConditions, List.map_append]
        rw [String.intercalate_append_of_ne_nil (by simp) (by simp)]
      exact congrArg₂ Predicate.mk htext List.flatMap_append

theorem conditions_filter (r : Record) : conditions (r.filter (!·.isSkipped)) = conditions r := by
  induction r with
  | nil => rfl
  | cons f r ih =>
    have hcons (s : Record) : conditions (f :: s) = conditions ([f] ++ s) := rfl
    by_cases hf : f.isSkipped
    · have hnone : conditions [f] = .ok [] := by
        simp [conditions, FieldOf.condition_eq_ok_none hf]
        rfl
      rw [List.filter_cons_of_neg (by simp [hf]), ih, hcons, conditions_append, hnone]
      cases conditions r <;> rfl
    · rw [List.filter_cons_of_pos (by simp [hf]), hcons, hcons, conditions_append, conditions_append, ih]

theorem ofRecord_append {r s : Record} (hr : ∀ f ∈ r, f.column ≠ "") (hs : ∀ f ∈ s, f.column ≠ "") :
    ofRecord (r ++ s) = (do .ok ((← ofRecord r).both (← ofRecord s))) := by
  rw [ofRecord_eq_map, ofRecord_eq_map, ofRecord_eq_map, conditions_append]
  cases hcr : conditions r with
  | error e => rfl
  | ok cs =>
    cases hcs : conditions s with
    | error e => rfl
    | ok ds =>
      exact congrArg Except.ok (ofConditions_append (column_ne_empty_of_mem_conditions hr hcr)
        (column_ne_empty_of_mem_conditions hs hcs))

/-- A record has no conditions just if every field is skipped. -/
theorem isEmpty_conditions {r : Record} {cs : List Condition} (hr : conditions r = .ok cs) :
    cs.isEmpty ↔ ∀ f ∈ r, f.isSkipped := by
  obtain ⟨hok, rfl⟩ := conditions_eq_ok hr
  rw [List.isEmpty_iff, ← List.map_eq_nil_iff (f := Condition.column), map_column_conditions hok,
    List.map_eq_nil_iff, List.filter_eq_nil_iff]
  simp

/-- The predicate of two records one after the other is that of both of them, unless one has a fault, the
first of which is that of the whole. Records that differ in nothing but fields that are skipped have the
same predicate or fault. A predicate is empty just if all fields are skipped, and then it has no
parameters. -/
theorem ofValue_record_append {r s : Record} (hr : ∀ f ∈ r, f.column ≠ "") (hs : ∀ f ∈ s, f.column ≠ "") :
    ofValue (.record (r ++ s)) =
        (do .ok ((← ofValue (.record r)).both (← ofValue (.record s)))) ∧
      (∀ t : Record, t.filter (!·.isSkipped) = r.filter (!·.isSkipped) →
        ofValue (.record t) = ofValue (.record r)) ∧
      ∀ p, ofValue (.record r) = .ok p →
        (p.isEmpty ↔ ∀ f ∈ r, f.isSkipped) ∧ (p.isEmpty → p.params = []) := by
  refine ⟨ofRecord_append hr hs, fun t ht => ?_, fun p hp => ?_⟩
  · show ofRecord t = ofRecord r
    rw [ofRecord_eq_map, ofRecord_eq_map, ← conditions_filter t, ← conditions_filter r, ht]
  · replace hp : ofRecord r = .ok p := hp
    rw [ofRecord_eq_map] at hp
    cases hcs : conditions r with
    | error e => rw [hcs] at hp; cases hp
    | ok cs =>
      rw [hcs] at hp
      cases hp
      rw [isEmpty_ofConditions (column_ne_empty_of_mem_conditions hr hcs)]
      refine ⟨isEmpty_conditions hcs, fun hempty => ?_⟩
      rw [List.isEmpty_iff.1 hempty]
      rfl

/-- Each kind of field that is skipped, and a record of nothing else behind one that asks something. -/
theorem ofValue_record_append_skipped :
    let r : Record := [
      { name := "Kind", value := .scalar (.string ""), tag := some ",omitempty" },
      { name := "Owner", value := .list [.scalar (.string "a"), .scalar (.int 7)] },
      { name := "Role", value := .optional (some (.list [])) },
      { name := "Taken", value := .scalar (.bool false) }]
    let s : Record := [
      { name := "Role", value := .list [], tag := some ",unnest" },
      { name := "At", value := .timeRange .zero }]
    let t : Record := [
      { name := "Owner", value := .list [.scalar (.string "a"), .scalar (.int 7)] },
      { name := "Taken", value := .scalar (.bool false) }]
    let p := ofConditions [.compare "Owner" false (.anyOf [.string "a", .int 7]), .holds "Taken" false]
    let q := ofConditions [.between "At" "0001-01-01T00:00:00Z" "0001-01-01T00:00:00Z"]
    (∀ f ∈ r, f.column ≠ "") ∧ (∀ f ∈ s, f.column ≠ "") ∧
      ofValue (.record r) = .ok p ∧ ofValue (.record s) = .ok q ∧
      ofValue (.record (r ++ s)) = .ok ⟨p.text ++ " AND " ++ q.text, p.params ++ q.params⟩ ∧
      ofValue (.record t) = .ok p ∧ p.isEmpty = false := by
  intro r s t p q
  have hr : ∀ f ∈ r, f.column ≠ "" := by decide +kernel
  have hs : ∀ f ∈ s, f.column ≠ "" := by decide +kernel
  have hrp : ofValue (.record r) = .ok p := rfl
  have hsq : ofValue (.record s) = .ok q := rfl
  obtain ⟨happend, hdelete, hempty⟩ := ofValue_record_append hr hs
  have hfilter : t.filter (!·.isSkipped) = r.filter (!·.isSkipped) := rfl
  have hkept : ¬ ∀ f ∈ r, f.isSkipped := by decide +kernel
  refine ⟨hr, hs, hrp, hsq, ?_, (hdelete t hfilter).trans hrp, ?_⟩
  · rw [happend, hrp, hsq]
    rfl
  · exact Bool.eq_false_iff.2 fun he => hkept ((hempty p hrp).1.1 he)

end Predicate

end QueryClauses
