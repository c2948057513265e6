import QueryClauses.Proofs.Projection.Leaves
import QueryClauses.Proofs.Text

/-! A columns clause can be read in one way only. A name or a reference ends where the first space, bracket or
comma stands, the word before it tells what kind of item it belongs to, and so the text of an item tells also
where it ends, whatever follows. -/

namespace QueryClauses

open Text (Free StartsIn startsIn_cons startsIn_append)

namespace ColumnExpr

variable {e f : ColumnExpr} {rest others : List Char}

/-- The characters that stand next to a name or a reference. -/
def marks : List Char := [' ', '(', ')', ',']

/-- Those that stand after an item. -/
def closers : List Char := [',', ')', ' ']

/-- Those that stand after the last item of a clause. -/
def ends : List Char := [')', ' ']

mutual

/-- No name and no reference has a mark in it, and every group has fields. -/
def Legible : ColumnExpr → Prop
  | column reference => Free marks reference
  | struct fields name => fields ≠ [] ∧ AllLegible fields ∧ Free marks name
  | array fields source name => fields ≠ [] ∧ AllLegible fields ∧ Free marks source ∧ Free marks name

def AllLegible : List ColumnExpr → Prop
  | [] => True
  | e :: es => e.Legible ∧ AllLegible es

end

/-! ### Words -/

/-- The text of an item before its first mark. -/
def word : ColumnExpr → String
  | column reference => reference
  | struct _ _ => "STRUCT"
  | array _ _ _ => "ARRAY"

/-- The text of an item from its first mark on, and what follows it. -/
def afterWord (rest : List Char) : ColumnExpr → List Char
  | column _ => rest
  | struct fields name =>
    '(' :: ((clause fields).toList ++ (") AS ".toList ++ (name.toList ++ rest)))
  | array fields source name =>
    '(' :: ("SELECT AS STRUCT ".toList ++ ((clause fields).toList ++ (" FROM UNNEST(".toList ++
      (source.toList ++ (")) AS ".toList ++ (name.toList ++ rest))))))

theorem toList_text_append (e : ColumnExpr) (rest : List Char) :
    e.text.toList ++ rest = e.word.toList ++ e.afterWord rest := by
  cases e with
  | column reference => rfl
  | struct fields name =>
    have hhead : "STRUCT(".toList = "STRUCT".toList ++ ['('] := by decide
    show (structText (clause fields) name).toList ++ rest = _
    unfold structText
    simp only [String.toList_append, List.append_assoc, word, afterWord, hhead, List.cons_append,
      List.nil_append]
  | array fields source name =>
    have hhead : "ARRAY(SELECT AS STRUCT ".toList = "ARRAY".toList ++ '(' :: "SELECT AS STRUCT ".toList := by
      decide
    show (arrayText (clause fields) source name).toList ++ rest = _
    unfold arrayText
    simp only [String.toList_append, List.append_assoc, word, afterWord, hhead, List.cons_append]

theorem Legible.free_word (h : e.Legible) : Free marks e.word := by
  cases e with
  | column reference => exact h
  | struct fields name => exact (by decide : Free marks "STRUCT")
  | array fields source name => exact (by decide : Free marks "ARRAY")

theorem startsIn_afterWord (h : StartsIn closers rest) : StartsIn marks (e.afterWord rest) := by
  cases e with
  | column reference => exact h.mono (by decide)
  | struct fields name => exact startsIn_cons (by decide)
  | array fields source name => exact startsIn_cons (by decide)

theorem afterWord_inj (he : e.Legible) (hf : f.Legible) (hrest : StartsIn closers rest)
    (hothers : StartsIn closers others) (h : e.text.toList ++ rest = f.text.toList ++ others) :
    e.word = f.word ∧ e.afterWord rest = f.afterWord others := by
  rw [toList_text_append, toList_text_append] at h
  exact he.free_word.append_inj hf.free_word (startsIn_afterWord hrest) (startsIn_afterWord hothers) h

/-! ### Prefixes -/

/-- The text of a clause after its first item, and what follows it. -/
def afterItem (rest : List Char) : List ColumnExpr → List Char
  | [] => rest
  | e :: es => ',' :: ((clause (e :: es)).toList ++ rest)

theorem toList_clause_append (e : ColumnExpr) (es : List ColumnExpr) (rest : List Char) :
    (clause (e :: es)).toList ++ rest = e.text.toList ++ afterItem rest es := by
  cases es with
  | nil => rw [clause, texts, texts, String.intercalate_singleton, afterItem]
  | cons next es =>
    rw [clause, texts, texts, String.intercalate_cons_cons, ← texts, ← clause, String.toList_append,
      String.toList_append, List.append_assoc, List.append_assoc, afterItem]
    rfl

theorem startsIn_afterItem {es : List ColumnExpr} (h : StartsIn ends rest) :
    StartsIn closers (afterItem rest es) := by
  cases es with
  | nil => exact h.mono (by decide)
  | cons e es => exact startsIn_cons (by decide)

mutual

theorem text_append_inj : ∀ {e f : ColumnExpr}, e.Legible → f.Legible → ∀ {rest others : List Char},
    StartsIn closers rest → StartsIn closers others → e.text.toList ++ rest = f.text.toList ++ others →
    e = f ∧ rest = others
  | column _, column _, he, hf => by
    intro hrest hothers h
    obtain ⟨rfl, hafter⟩ := afterWord_inj he hf hrest hothers h
    exact ⟨rfl, hafter⟩
  | struct fields name, struct fields' name', he, hf => by
    intro hrest hothers h
    obtain ⟨-, hafter⟩ := List.cons.inj (afterWord_inj he hf hrest hothers h).2
    obtain ⟨hne, hfields, hname⟩ := he
    obtain ⟨hne', hfields', hname'⟩ := hf
    have hend {tail : List Char} : StartsIn ends (") AS ".toList ++ tail) := startsIn_append rfl (by decide)
    obtain ⟨rfl, hafterFields⟩ := clause_append_inj hne hne' hfields hfields' hend hend hafter
    obtain ⟨rfl, hrests⟩ := hname.append_inj hname' (hrest.mono (by decide)) (hothers.mono (by decide))
      (List.append_cancel_left hafterFields)
    exact ⟨rfl, hrests⟩
  | array fields source name, array fields' source' name', he, hf => by
    intro hrest hothers h
    obtain ⟨-, hafter⟩ := List.cons.inj (afterWord_inj he hf hrest hothers h).2
    obtain ⟨hne, hfields, hsource, hname⟩ := he
    obtain ⟨hne', hfields', hsource', hname'⟩ := hf
    have hend {tail : List Char} : StartsIn ends (" FROM UNNEST(".toList ++ tail) :=
      startsIn_append rfl (by decide)
    have hclose {tail : List Char} : StartsIn marks (")) AS ".toList ++ tail) := startsIn_append rfl (by decide)
    obtain ⟨rfl, hafterFields⟩ := clause_append_inj hne hne' hfields hfields' hend hend
      (List.append_cancel_left hafter)
    obtain ⟨rfl, hafterSource⟩ := hsource.append_inj hsource' hclose hclose
      (List.append_cancel_left hafterFields)
    obtain ⟨rfl, hrests⟩ := hname.append_inj hname' (hrest.mono (by decide)) (hothers.mono (by decide))
      (List.append_cancel_left hafterSource)
    exact ⟨rfl, hrests⟩
  -- A column has no bracket after it, and the words of the groups differ.
  | column _, struct _ _, he, hf => fun hrest hothers h =>
    absurd (afterWord_inj he hf hrest hothers h).2 (hrest.ne_cons (by decide))
  | column _, array _ _ _, he, hf => fun hrest hothers h =>
    absurd (afterWord_inj he hf hrest hothers h).2 (hrest.ne_cons (by decide))
  | struct _ _, column _, he, hf => fun hrest hothers h =>
    absurd (afterWord_inj he hf hrest hothers h).2.symm (hothers.ne_cons (by decide))
  | array _ _ _, column _, he, hf => fun hrest hothers h =>
    absurd (afterWord_inj he hf hrest hothers h).2.symm (hothers.ne_cons (by decide))
  | struct _ _, array _ _ _, he, hf => fun hrest hothers h =>
    absurd (afterWord_inj he hf hrest hothers h).1 (by decide : "STRUCT" ≠ "ARRAY")
  | array _ _ _, struct _ _, he, hf => fun hrest hothers h =>
    absurd (afterWord_inj he hf hrest hothers h).1 (by decide : "ARRAY" ≠ "STRUCT")

theorem clause_append_inj : ∀ {es fs : List ColumnExpr}, es ≠ [] → fs ≠ [] → AllLegible es → AllLegible fs →
    ∀ {rest others : List Char}, StartsIn ends rest → StartsIn ends others →
    (clause es).toList ++ rest = (clause fs).toList ++ others → es = fs ∧ rest = others
  | [], _, hes, _, _, _ => absurd rfl hes
  | _ :: _, [], _, hfs, _, _ => absurd rfl hfs
  | e :: es, f :: fs, _, _, ⟨he, hes⟩, ⟨hf, hfs⟩ => by
    intro hrest hothers h
    rw [toList_clause_append, toList_clause_append] at h
    obtain ⟨rfl, hafter⟩ := text_append_inj he hf (startsIn_afterItem hrest) (startsIn_afterItem hothers) h
    -- what follows starts with a comma just if there is a further item
    match es, fs with
    | [], [] => exact ⟨rfl, hafter⟩
    | [], _ :: _ => exact absurd hafter (hrest.ne_cons (by decide))
    | _ :: _, [] => exact absurd hafter.symm (hothers.ne_cons (by decide))
    | _ :: _, _ :: _ =>
      obtain ⟨-, hnext⟩ := List.cons.inj hafter
      obtain ⟨hitems, hrests⟩ := clause_append_inj (List.cons_ne_nil _ _) (List.cons_ne_nil _ _) hes hfs hrest
        hothers hnext
      exact ⟨congrArg _ hitems, hrests⟩

end

theorem clause_inj {es fs : List ColumnExpr} (hes : es ≠ []) (hfs : fs ≠ []) (he : AllLegible es)
    (hf : AllLegible fs) (h : clause es = clause fs) : es = fs :=
  (clause_append_inj hes hfs he hf StartsIn.nil StartsIn.nil (by rw [h])).1

end ColumnExpr

/-! ### Trees -/

theorem Path.ofSegments_concat_inj {scope : List String} {name other : String}
    (h : ofSegments (scope ++ [name]) = ofSegments (scope ++ [other])) : name = other := by
  cases scope with
  | nil => simpa only [ofSegments, List.nil_append, String.intercalate_singleton] using h
  | cons head scope =>
    have hjoin (last : String) :
        ofSegments (head :: scope ++ [last]) = ofSegments (head :: scope) ++ "." ++ last := by
      rw [ofSegments_append (List.cons_ne_nil _ _) (List.cons_ne_nil _ _)]
      exact congrArg _ String.intercalate_singleton
    rw [hjoin, hjoin] at h
    exact String.append_right_inj _ |>.1 h

namespace ColumnTree

open ColumnExpr (marks)

variable {scope : List String} {name : String}

mutual

theorem expr_inj : ∀ {t u : ColumnTree} {scope : List String}, expr scope t = expr scope u → t = u
  | leaf _, leaf _, _, h => by
    rw [expr, expr] at h
    cases Path.ofSegments_concat_inj (ColumnExpr.column.inj h)
    rfl
  | struct name children, struct other others, scope, h => by
    rw [expr, expr] at h
    obtain ⟨hc, rfl⟩ := ColumnExpr.struct.inj h
    rw [exprs_inj hc]
  | array name children, array other others, scope, h => by
    rw [expr, expr] at h
    obtain ⟨hc, -, rfl⟩ := ColumnExpr.array.inj h
    rw [exprs_inj hc]

theorem exprs_inj : ∀ {ts us : List ColumnTree} {scope : List String}, exprs scope ts = exprs scope us → ts = us
  | [], [], _, _ => rfl
  | t :: ts, u :: us, scope, h => by
    rw [exprs, exprs] at h
    obtain ⟨ht, hts⟩ := List.cons.inj h
    rw [expr_inj ht, exprs_inj hts]

end

/-- Names without marks are joined to a reference without marks. -/
theorem free_ofSegments {names : List String} (h : ∀ name ∈ names, Free marks name) :
    Free marks (Path.ofSegments names) := by
  have hdot : Free marks "." := by decide
  exact fun c hc => Text.not_mem_intercalate (hdot c hc) fun name hn => h name hn c hc

theorem free_concat (hs : ∀ name ∈ scope, Free marks name) (hn : Free marks name) :
    ∀ n ∈ scope ++ [name], Free marks n :=
  List.forall_mem_append.2 ⟨hs, List.forall_mem_singleton.2 hn⟩

theorem exprs_ne_nil {ts : List ColumnTree} (h : ts ≠ []) : exprs scope ts ≠ [] := by
  rw [exprs_eq_map]
  simpa using h

mutual

theorem legible_expr : ∀ {t : ColumnTree} {scope : List String}, (∀ name ∈ scope, Free marks name) →
    t.Grown (Free marks) → (expr scope t).Legible
  | leaf _, _, hs, hn => free_ofSegments (free_concat hs hn)
  | struct _ _, _, hs, ⟨hn, hne, hc⟩ =>
    ⟨exprs_ne_nil hne, allLegible_exprs (free_concat hs hn) hc, hn⟩
  | array _ _, _, hs, ⟨hn, hne, hc⟩ =>
    ⟨exprs_ne_nil hne, allLegible_exprs (List.forall_mem_nil _) hc,
      free_ofSegments (free_concat hs hn), hn⟩

theorem allLegible_exprs : ∀ {ts : List ColumnTree} {scope : List String}, (∀ name ∈ scope, Free marks name) →
    AllGrown (Free marks) ts → ColumnExpr.AllLegible (exprs scope ts)
  | [], _, _, _ => trivial
  | _ :: _, _, hs, ⟨ht, hts⟩ => ⟨legible_expr hs ht, allLegible_exprs hs hts⟩

end

/-- What holds of all characters of a path holds of those of its names. -/
theorem free_of_mem_segments {path : String} (h : Free marks path) (hn : name ∈ Path.segments path) :
    Free marks name := by
  intro c hc hmem
  refine h c hc ?_
  rw [← Path.ofSegments_segments path]
  exact Text.mem_intercalate_of_mem hn hmem

theorem allLegible_exprs_ofPaths (spec : Spec) {paths : List String} (h : ∀ path ∈ paths, Free marks path) :
    ColumnExpr.AllLegible (exprs [] (ofPaths spec paths)) :=
  allLegible_exprs (List.forall_mem_nil _) (allGrown_grouped (List.forall_mem_map.2 fun path hp _ hn =>
    free_of_mem_segments (h path hp) hn))

theorem exprs_ofPaths_ne_nil (spec : Spec) {paths : List String} (h : paths ≠ []) :
    exprs [] (ofPaths spec paths) ≠ [] := by
  obtain ⟨path, paths, rfl⟩ := List.exists_cons_of_ne_nil h
  exact exprs_ne_nil (grouped_ne_nil (Path.segments_ne_nil path))

end ColumnTree

open ColumnTree ColumnExpr

theorem columnsClause_eq_clause_exprs {spec : Spec} {paths : List String} (hp : paths ≠ []) :
    columnsClause spec paths = ColumnExpr.clause (exprs [] (ColumnTree.ofPaths spec paths)) := by
  rw [columnsClause, List.isEmpty_eq_false_iff.2 hp, if_neg Bool.false_ne_true, Projection.clause,
    Projection.items_ofPaths]

/-- Two columns clauses with the same text select through the same groups, in the same order, the same columns:
the names and the kinds of all groups can be read in the text, whatever the names are, as long as they have no
space, bracket or comma. -/
theorem forest_eq_of_columnsClause_eq {spec other : Spec} {paths others : List String} (hp : paths ≠ [])
    (ho : others ≠ []) (hpaths : ∀ path ∈ paths, Free marks path) (hothers : ∀ path ∈ others, Free marks path)
    (h : columnsClause spec paths = columnsClause other others) :
    (Projection.ofPaths spec paths).forest = (Projection.ofPaths other others).forest := by
  rw [columnsClause_eq_clause_exprs hp, columnsClause_eq_clause_exprs ho] at h
  rw [Projection.forest_ofPaths, Projection.forest_ofPaths]
  exact exprs_inj (clause_inj (exprs_ofPaths_ne_nil spec hp) (exprs_ofPaths_ne_nil other ho)
    (allLegible_exprs_ofPaths spec hpaths) (allLegible_exprs_ofPaths other hothers) h)

/-- Groups that are asked for again later, a name without characters, a column that is called like the word of
a group, and a repeated column that is not asked for. -/
theorem forest_eq_of_columnsClause_eq_regrouped :
    let spec : Spec := ⟨.ofList ["Lines", "Lines.Parts"], ""⟩
    let other : Spec := ⟨.ofList ["Lines", "Lines.Parts", "Taxes"], ""⟩
    let paths := ["Lines.Parts.Code", "STRUCT", "Lines.", "Lines.Parts.ARRAY"]
    let others := ["Lines.Parts.Code", "Lines.Parts.ARRAY", "Lines.", "STRUCT"]
    columnsClause spec paths = columnsClause other others ∧
      (Projection.ofPaths spec paths).forest = (Projection.ofPaths other others).forest := by
  intro spec other paths others
  have h : columnsClause spec paths = columnsClause other others := by decide +kernel
  exact ⟨h, forest_eq_of_columnsClause_eq (List.cons_ne_nil _ _) (List.cons_ne_nil _ _) (by decide +kernel)
    (by decide +kernel) h⟩

/-- A comma in a name can be read as the end of an item. -/
example : columnsClause ⟨.empty, ""⟩ ["A,B"] = columnsClause ⟨.empty, ""⟩ ["A", "B"] := by
  decide +kernel

end QueryClauses
