import GraphQLClient.Proofs.Building.Selecting
import GraphQLClient.Proofs.Decoding.Fields
import GraphQLClient.Proofs.Language.Counterparts

set_option autoImplicit false

/-!
# Selections that repeat others

A selection echoes another one if the decoder sees no difference between them: response keys, types
and conditions are the same at every depth, while arguments and the names of fragments do not matter.
`Thinned seen all kept` says that `kept` comes from `all` by leaving out selections that echo one
before them, where those in `seen` stand before all others. Leaving out repeats is what happens when
fields are merged and when sets are built anew; what applies to an object is thinned along with the
selections it comes from.
-/

namespace GraphQLClient

namespace Selection

mutual
def Echoes : Selection → Selection → Prop
  | .leaf a, .leaf b => a.responseKey = b.responseKey
  | .composite a type selections, .composite b type' selections' =>
    a.responseKey = b.responseKey ∧ type = type' ∧ EchoesAll selections selections'
  | .inlineFragment condition _ selections, .inlineFragment condition' _ selections' =>
    condition = condition' ∧ EchoesAll selections selections'
  | .spread _ _ condition _ selections, .spread _ _ condition' _ selections' =>
    condition = condition' ∧ EchoesAll selections selections'
  | _, _ => False

def EchoesAll : List Selection → List Selection → Prop
  | [], [] => True
  | a :: rest, b :: others => Echoes a b ∧ EchoesAll rest others
  | _, _ => False
end

mutual
theorem Echoes.refl (selection : Selection) : Echoes selection selection := by
  cases selection with
  | leaf field => exact rfl
  | composite field typeName selections => exact ⟨rfl, rfl, EchoesAll.refl selections⟩
  | inlineFragment condition typeName selections => exact ⟨rfl, EchoesAll.refl selections⟩
  | spread serial name condition typeName selections => exact ⟨rfl, EchoesAll.refl selections⟩

theorem EchoesAll.refl (selections : List Selection) : EchoesAll selections selections := by
  cases selections with
  | nil => trivial
  | cons selection rest => exact ⟨Echoes.refl selection, EchoesAll.refl rest⟩
end

mutual
theorem Echoes.trans {a b c : Selection} (hab : Echoes a b) (hbc : Echoes b c) : Echoes a c := by
  cases a <;> cases b <;> first | exact hab.elim | skip
  all_goals cases c <;> first | exact hbc.elim | skip
  · exact Eq.trans hab hbc
  · exact ⟨hab.1.trans hbc.1, hab.2.1.trans hbc.2.1, EchoesAll.trans hab.2.2 hbc.2.2⟩
  · exact ⟨hab.1.trans hbc.1, EchoesAll.trans hab.2 hbc.2⟩
  · exact ⟨hab.1.trans hbc.1, EchoesAll.trans hab.2 hbc.2⟩

theorem EchoesAll.trans {a b c : List Selection} (hab : EchoesAll a b) (hbc : EchoesAll b c) :
    EchoesAll a c := by
  cases a <;> cases b <;> first | exact hab.elim | skip
  all_goals cases c <;> first | exact hbc.elim | skip
  · trivial
  · exact ⟨Echoes.trans hab.1 hbc.1, EchoesAll.trans hab.2 hbc.2⟩
end

theorem EchoesAll.append {a b c d : List Selection} (hab : EchoesAll a b) (hcd : EchoesAll c d) :
    EchoesAll (a ++ c) (b ++ d) := by
  induction a generalizing b with
  | nil =>
    cases b with
    | nil => exact hcd
    | cons selection rest => exact hab.elim
  | cons selection rest ih =>
    cases b with
    | nil => exact hab.elim
    | cons other others => exact ⟨hab.1, ih hab.2⟩

theorem EchoesAll.exists {a b : List Selection} (h : EchoesAll a b) :
    ∀ repeated ∈ b, ∃ first ∈ a, Echoes first repeated := by
  induction a generalizing b with
  | nil =>
    cases b with
    | nil => exact fun _ hb => absurd hb List.not_mem_nil
    | cons other others => exact h.elim
  | cons selection rest ih =>
    cases b with
    | nil => exact h.elim
    | cons other others =>
      intro repeated hr
      rcases List.mem_cons.1 hr with rfl | hr
      · exact ⟨selection, List.mem_cons_self, h.1⟩
      · obtain ⟨first, hf, he⟩ := ih h.2 repeated hr
        exact ⟨first, List.mem_cons_of_mem _ hf, he⟩

mutual
/-- Equal selections echo each other. -/
theorem echoes_of_same {a b : Selection} (h : a.same b = true) : Echoes a b := by
  cases a <;> cases b <;> simp only [same, Bool.and_eq_true, beq_iff_eq, Bool.false_eq_true] at h
  case leaf.leaf => exact Field.responseKey_of_same h
  case composite.composite =>
    exact ⟨Field.responseKey_of_same h.1.1, h.1.2, echoesAll_of_sameAll h.2⟩
  case inlineFragment.inlineFragment => exact ⟨h.1.1, echoesAll_of_sameAll h.2⟩
  case spread.spread => exact ⟨h.1.1.2, echoesAll_of_sameAll h.2⟩

theorem echoesAll_of_sameAll {a b : List Selection} (h : sameAll a b = true) : EchoesAll a b := by
  cases a <;> cases b <;> simp only [sameAll, Bool.and_eq_true, Bool.false_eq_true] at h
  · trivial
  · exact ⟨echoes_of_same h.1, echoesAll_of_sameAll h.2⟩
end

theorem Echoes.answers_eq {a b : Selection} (h : Echoes a b) (key : String) :
    a.answers key = b.answers key := by
  cases a <;> cases b <;> first | exact h.elim | skip
  · exact congrArg (· == key) h
  · exact congrArg (· == key) h.1
  · rfl
  · rfl

theorem Echoes.key?_eq {a b : Selection} (h : Echoes a b) : a.key? = b.key? := by
  cases a <;> cases b <;> first | exact h.elim | skip
  · exact congrArg some h
  · exact congrArg some h.1
  · rfl
  · rfl

theorem Echoes.inner {a b : Selection} (h : Echoes a b) : EchoesAll a.inner b.inner := by
  cases a <;> cases b <;> first | exact h.elim | skip
  · trivial
  · exact h.2.2
  · trivial
  · trivial

variable {bundle : Bundle} {type : TypeDescriptor}

mutual
theorem Echoes.fieldsOn {a b : Selection} (h : Echoes a b) :
    EchoesAll (a.fieldsOn bundle type) (b.fieldsOn bundle type) := by
  cases a <;> cases b <;> first | exact h.elim | skip
  · exact ⟨h, trivial⟩
  · exact ⟨h, trivial⟩
  · obtain ⟨rfl, hs⟩ := h
    rw [Selection.fieldsOn, Selection.fieldsOn]
    split
    · exact EchoesAll.fieldsOnAll hs
    · trivial
  · obtain ⟨rfl, hs⟩ := h
    rw [Selection.fieldsOn, Selection.fieldsOn]
    split
    · exact EchoesAll.fieldsOnAll hs
    · trivial

theorem EchoesAll.fieldsOnAll {a b : List Selection} (h : EchoesAll a b) :
    EchoesAll (Selection.fieldsOnAll bundle type a) (Selection.fieldsOnAll bundle type b) := by
  cases a <;> cases b <;> first | exact h.elim | skip
  · trivial
  · exact (Echoes.fieldsOn h.1).append (EchoesAll.fieldsOnAll h.2)
end

theorem fieldsOnAll_eq_flatMap (selections : List Selection) :
    fieldsOnAll bundle type selections = selections.flatMap (fieldsOn bundle type) := by
  induction selections with
  | nil => rfl
  | cons selection rest ih => rw [fieldsOnAll, List.flatMap_cons, ih]

/-- Every selection of `b` echoes one of `a`. -/
def Covers (a b : List Selection) : Prop := ∀ repeated ∈ b, ∃ first ∈ a, Echoes first repeated

theorem Covers.refl (selections : List Selection) : Covers selections selections :=
  fun selection hs => ⟨selection, hs, Echoes.refl selection⟩

theorem Covers.snoc {a b : List Selection} (h : Covers a b) (selection : Selection) :
    Covers (a ++ [selection]) (b ++ [selection]) := by
  intro repeated hr
  rcases List.mem_append.1 hr with hr | hr
  · obtain ⟨first, hf, he⟩ := h repeated hr
    exact ⟨first, List.mem_append_left _ hf, he⟩
  · exact ⟨repeated, List.mem_append_right _ hr, Echoes.refl repeated⟩

inductive Thinned : List Selection → List Selection → List Selection → Prop
  | nil (seen : List Selection) : Thinned seen [] []
  | keep {seen all kept : List Selection} (selection : Selection)
      (rest : Thinned (seen ++ [selection]) all kept) :
      Thinned seen (selection :: all) (selection :: kept)
  | drop {seen all kept : List Selection} {first selection : Selection} (before : first ∈ seen)
      (echoes : Echoes first selection) (rest : Thinned seen all kept) :
      Thinned seen (selection :: all) kept

namespace Thinned

variable {seen seen' all kept : List Selection}

theorem keepAll {more more' : List Selection} (selections : List Selection)
    (h : Thinned (seen ++ selections) more more') :
    Thinned seen (selections ++ more) (selections ++ more') := by
  induction selections generalizing seen with
  | nil => rwa [List.append_nil] at h
  | cons selection rest ih =>
    refine .keep selection (ih ?_)
    rwa [List.append_assoc, List.singleton_append]

theorem dropAll {more more' dropped : List Selection} (hc : Covers seen dropped)
    (h : Thinned seen more more') : Thinned seen (dropped ++ more) more' := by
  induction dropped with
  | nil => exact h
  | cons selection rest ih =>
    obtain ⟨first, hf, he⟩ := hc selection List.mem_cons_self
    exact .drop hf he (ih fun other ho => hc other (List.mem_cons_of_mem _ ho))

theorem refl (seen selections : List Selection) : Thinned seen selections selections := by
  have h : Thinned seen (selections ++ []) (selections ++ []) := keepAll selections (.nil _)
  rwa [List.append_nil] at h

theorem trans {fewer : List Selection} (h : Thinned seen all kept) (h' : Thinned seen' kept fewer)
    (hc : Covers seen' seen) : Thinned seen' all fewer := by
  induction h generalizing seen' fewer with
  | nil seen =>
    cases h'
    exact .nil seen'
  | keep selection rest ih =>
    cases h' with
    | keep _ rest' => exact .keep selection (ih rest' (hc.snoc selection))
    | drop hf he rest' =>
      refine .drop hf he (ih rest' fun repeated hr => ?_)
      rcases List.mem_append.1 hr with hr | hr
      · exact hc repeated hr
      · obtain rfl := List.mem_singleton.1 hr
        exact ⟨_, hf, he⟩
  | drop hf he rest ih =>
    obtain ⟨first, hf, he'⟩ := hc _ hf
    exact .drop hf (he'.trans he) (ih h' hc)

theorem subset (h : Thinned seen all kept) : ∀ selection ∈ kept, selection ∈ all := by
  induction h with
  | nil seen => exact fun _ h => h
  | keep selection rest ih =>
    exact List.forall_mem_cons.2 ⟨List.mem_cons_self, fun _ hm => List.mem_cons_of_mem _ (ih _ hm)⟩
  | drop hf he rest ih => exact fun _ hm => List.mem_cons_of_mem _ (ih _ hm)

theorem append {more more' : List Selection} (h : Thinned seen all kept)
    (h' : Thinned (seen ++ kept) more more') : Thinned seen (all ++ more) (kept ++ more') := by
  induction h with
  | nil seen => rwa [List.append_nil] at h'
  | keep selection rest ih =>
    refine .keep selection (ih ?_)
    rwa [List.append_assoc, List.singleton_append]
  | drop hf he rest ih => exact .drop hf he (ih h')

/-- Whatever echoes make echoes of keeps a set thinned. -/
theorem flatMap {f : Selection → List Selection} (h : Thinned seen all kept)
    (hf : ∀ a b, Echoes a b → Covers (f a) (f b)) :
    Thinned (seen.flatMap f) (all.flatMap f) (kept.flatMap f) := by
  induction h with
  | nil seen => exact .nil _
  | keep selection rest ih =>
    rw [List.flatMap_append, List.flatMap_singleton] at ih
    exact keepAll (f selection) ih
  | drop hm he rest ih =>
    refine dropAll (fun repeated hr => ?_) ih
    obtain ⟨first, hfirst, he⟩ := hf _ _ he repeated hr
    exact ⟨first, List.mem_flatMap.2 ⟨_, hm, hfirst⟩, he⟩

theorem fieldsOnAll (h : Thinned seen all kept) :
    Thinned (Selection.fieldsOnAll bundle type seen) (Selection.fieldsOnAll bundle type all)
      (Selection.fieldsOnAll bundle type kept) := by
  simp only [fieldsOnAll_eq_flatMap]
  exact h.flatMap fun _ _ he => he.fieldsOn.exists

theorem inner (h : Thinned seen all kept) :
    Thinned (seen.flatMap Selection.inner) (all.flatMap Selection.inner)
      (kept.flatMap Selection.inner) :=
  h.flatMap fun _ _ he => he.inner.exists

theorem answers (h : Thinned seen all kept) (key : String) :
    Thinned (seen.filter (Selection.answers key)) (all.filter (Selection.answers key))
      (kept.filter (Selection.answers key)) := by
  induction h with
  | nil seen => exact .nil _
  | @keep seen all kept selection rest ih =>
    by_cases ha : selection.answers key = true
    · rw [List.filter_append, List.filter_cons_of_pos ha] at ih
      rw [List.filter_cons_of_pos ha, List.filter_cons_of_pos ha]
      exact .keep selection ih
    · rw [List.filter_append, List.filter_cons_of_neg ha, List.filter_nil, List.append_nil] at ih
      rw [List.filter_cons_of_neg ha, List.filter_cons_of_neg ha]
      exact ih
  | @drop seen all kept first selection hf he rest ih =>
    by_cases ha : selection.answers key = true
    · rw [List.filter_cons_of_pos ha]
      exact .drop (List.mem_filter.2 ⟨hf, (he.answers_eq key).trans ha⟩) he ih
    · rw [List.filter_cons_of_neg ha]
      exact ih

theorem head?_eq (h : Thinned [] all kept) : kept.head? = all.head? := by
  cases h with
  | nil => rfl
  | keep selection rest => rfl
  | drop hf => cases hf

/-- The names that are new beside some names and one more. -/
theorem filter_unseen_concat (seen names : List String) (key : String) :
    names.filter (!(seen ++ [key]).contains ·) =
      (names.filter (!seen.contains ·)).filter (!· == key) := by
  rw [List.filter_filter]
  congr 1
  funext other
  by_cases h : other = key <;> simp [h]

/-- A name that was seen is not among the new ones. -/
theorem filter_unseen_of_seen {seen : List String} {key : String} (h : seen.contains key = true)
    (names : List String) :
    (names.filter (!seen.contains ·)).filter (!· == key) = names.filter (!seen.contains ·) := by
  rw [List.filter_eq_self]
  intro other ho
  have hother := (List.mem_filter.1 ho).2
  rw [Bool.not_eq_true', beq_eq_false_iff_ne]
  rintro rfl
  rw [h] at hother
  cases hother

/-- A name that echoes share comes first at the same place. -/
theorem eraseDups_filterMap {name : Selection → Option String}
    (hn : ∀ a b, Echoes a b → name a = name b) (h : Thinned seen all kept) :
    ((all.filterMap name).filter (!(seen.filterMap name).contains ·)).eraseDups =
      ((kept.filterMap name).filter (!(seen.filterMap name).contains ·)).eraseDups := by
  induction h with
  | nil seen => rfl
  | @keep seen all kept selection rest ih =>
    cases hs : name selection with
    | none =>
      rw [List.filterMap_append, List.filterMap_cons_none hs, List.filterMap_nil,
        List.append_nil] at ih
      rw [List.filterMap_cons_none hs, List.filterMap_cons_none hs]
      exact ih
    | some key =>
      rw [List.filterMap_cons_some hs, List.filterMap_cons_some hs, List.filter_cons,
        List.filter_cons]
      rw [List.filterMap_append, List.filterMap_cons_some hs, List.filterMap_nil,
        filter_unseen_concat, filter_unseen_concat] at ih
      split
      · rw [List.eraseDups_cons, List.eraseDups_cons, ih]
      · rename_i hnew
        have hseen : (seen.filterMap name).contains key = true := by
          rwa [Bool.not_eq_true', Bool.not_eq_false] at hnew
        rwa [filter_unseen_of_seen hseen, filter_unseen_of_seen hseen] at ih
  | @drop seen all kept first selection hf he rest ih =>
    cases hs : name selection with
    | none =>
      rw [List.filterMap_cons_none hs]
      exact ih
    | some key =>
      have hseen : (seen.filterMap name).contains key = true :=
        List.contains_iff_mem.2 (List.mem_filterMap.2 ⟨first, hf, (hn _ _ he).trans hs⟩)
      rw [List.filterMap_cons_some hs, List.filter_cons, hseen]
      exact ih

/-- The names that echoes share are the same without repeats. -/
theorem eraseDups_eq {name : Selection → Option String}
    (hn : ∀ a b, Echoes a b → name a = name b) (h : Thinned [] all kept) :
    (all.filterMap name).eraseDups = (kept.filterMap name).eraseDups := by
  have hall : ∀ names : List String,
      names.filter (!(([] : List Selection).filterMap name).contains ·) = names :=
    fun names => List.filter_eq_self.2 fun _ _ => rfl
  have hnames := h.eraseDups_filterMap hn
  rwa [hall, hall] at hnames

end Thinned

end Selection

end GraphQLClient
