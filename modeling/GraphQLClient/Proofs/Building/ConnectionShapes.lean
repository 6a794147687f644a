import GraphQLClient.Proofs.Building.Making
import GraphQLClient.Proofs.Building.Omissions
import GraphQLClient.Proofs.Building.Stability
import GraphQLClient.Proofs.Building.UndeclaredVariables

set_option autoImplicit false

/-!
# The shape of connections

A field that is selected as a connection gets the edges and the page info around the selections of its
nodes. A finished field may be marked as a connection too; the mark is kept, and what stands below it is
taken like the set of any other field. So all connections of a built set have their shape exactly if the
finished ones that went into it do.
-/

namespace GraphQLClient

open Building

namespace Selection

/-- What a path of fields leads to, each of them selected under its own name: whether the last one has a
set below it. -/
def leads? (selections : List Selection) : List String → Option Bool
  | [] => some true
  | name :: rest =>
    match selections.find? (answers name) with
    | some (.composite field _ wanted) => if field.name = name then leads? wanted rest else none
    | some (.leaf field) => if field.name = name ∧ rest = [] then some false else none
    | _ => none

/-- What is selected in every connection. -/
def pagePaths : List (List String) :=
  [["edges", "cursor"], ["edges", "node"], ["pageInfo", "hasNextPage"],
    ["pageInfo", "hasPreviousPage"]]

def showsPages (selections : List Selection) : Bool :=
  pagePaths.all (fun path => (leads? selections path).isSome) &&
    leads? selections ["edges", "node"] == some true

mutual
/-- What is marked as a connection selects pages, in the selection itself and below it. The bodies of
fragments are sets of their own. -/
def wellPaged : Selection → Bool
  | .leaf field => !field.connection
  | .composite field _ selections =>
    (!field.connection || showsPages selections) && allWellPaged selections
  | .inlineFragment _ _ selections => allWellPaged selections
  | .spread .. => true

def allWellPaged : List Selection → Bool
  | [] => true
  | selection :: rest => wellPaged selection && allWellPaged rest
end

theorem allWellPaged_eq_all (selections : List Selection) :
    allWellPaged selections = selections.all wellPaged := by
  induction selections with
  | nil => rfl
  | cons selection rest ih => rw [allWellPaged, ih, List.all_cons]

theorem allWellPaged_append (before after : List Selection) :
    allWellPaged (before ++ after) = (allWellPaged before && allWellPaged after) := by
  simp only [allWellPaged_eq_all, List.all_append]

theorem allWellPaged_iff {selections : List Selection} :
    allWellPaged selections = true ↔ ∀ selection ∈ selections, selection.wellPaged = true := by
  rw [allWellPaged_eq_all, List.all_eq_true]

/-- In sets that are the same a path leads to the same. -/
theorem leads?_of_sameAll {a b : List Selection} (h : sameAll a b = true) (path : List String) :
    leads? a path = leads? b path := by
  induction path generalizing a b with
  | nil => rfl
  | cons name rest ih =>
    have hfind := find?_forall₂ name (fun h => answers_of_same h name) (sameAll_iff.1 h)
    unfold leads?
    cases ha : a.find? (answers name) <;> cases hb : b.find? (answers name) <;>
      rw [ha, hb] at hfind <;> cases hfind
    rename_i first second hsame
    cases first <;> cases second <;>
      simp only [same, Field.same, Bool.and_eq_true, beq_iff_eq, Bool.false_eq_true] at hsame
    case leaf.leaf => simp only [hsame.1.1.1]
    case composite.composite => simp only [hsame.1.1.1.1.1, ih hsame.2]
    case inlineFragment.inlineFragment => rfl
    case spread.spread => rfl

theorem showsPages_of_sameAll {a b : List Selection} (h : sameAll a b = true) :
    showsPages a = showsPages b := by
  simp only [showsPages, leads?_of_sameAll h]

mutual
theorem wellPaged_of_same {a b : Selection} (h : a.same b = true) : a.wellPaged = b.wellPaged := by
  cases a <;> cases b <;>
    simp only [same, Field.same, Bool.and_eq_true, beq_iff_eq, Bool.false_eq_true] at h <;>
    unfold wellPaged
  case leaf.leaf => rw [h.2]
  case composite.composite =>
    rw [h.1.1.2, showsPages_of_sameAll h.2, allWellPaged_of_sameAll h.2]
  case inlineFragment.inlineFragment => exact allWellPaged_of_sameAll h.2
  case spread.spread => rfl

theorem allWellPaged_of_sameAll {a b : List Selection} (h : sameAll a b = true) :
    allWellPaged a = allWellPaged b := by
  cases a <;> cases b <;> simp only [sameAll, Bool.and_eq_true, Bool.false_eq_true] at h
  case nil.nil => rfl
  case cons.cons =>
    unfold allWellPaged
    rw [wellPaged_of_same h.1, allWellPaged_of_sameAll h.2]
end

/-- A selection that is left out is as well paged as the one in its place. -/
theorem allWellPaged_beside {before : List Selection} {made : Selection}
    (hf : ∀ key, made.key? = some key → Fits before key made) :
    allWellPaged (beside before made) = (allWellPaged before && made.wellPaged) := by
  have hpush : allWellPaged (before ++ [made]) = (allWellPaged before && made.wellPaged) := by
    rw [allWellPaged_append, allWellPaged, allWellPaged, Bool.and_true]
  have hsettled : ∀ key, made.key? = some key →
      allWellPaged (settled before key made) = (allWellPaged before && made.wellPaged) := by
    intro key hkey
    rw [allWellPaged_eq_all, allWellPaged_eq_all]
    exact (hf key hkey).all_settled fun _ => wellPaged_of_same
  cases made with
  | leaf field => exact hsettled _ rfl
  | composite field typeName inner => exact hsettled _ rfl
  | inlineFragment condition typeName inner => exact hpush
  | spread serial name condition typeName inner =>
    change allWellPaged (Scope.spreadBeside before _) = _
    unfold Scope.spreadBeside
    split
    · rw [wellPaged, Bool.and_true]
    · exact hpush

end Selection

namespace Scope

open Selection

variable {scope : Scope} {before after selections : List Selection}

theorem RebuildsAll.leads? (h : scope.RebuildsAll selections [] after) (path : List String) :
    Selection.leads? after path = Selection.leads? selections path := by
  induction path generalizing scope selections after with
  | nil => rfl
  | cons name rest ih =>
    have hfind := h.find? name
    unfold Selection.leads?
    cases hs : selections.find? (answers name) <;> cases ha : after.find? (answers name) <;>
      rw [hs, ha] at hfind <;> cases hfind
    rename_i found other hmakes
    cases found with
    | leaf field => rw [hmakes.of_leaf]
    | composite field typeName inner =>
      obtain ⟨type, inner', hinner, rfl⟩ := hmakes.of_composite
      simp only [ih hinner]
    | inlineFragment condition typeName inner =>
      obtain ⟨target, inner', -, rfl⟩ := hmakes.of_inlineFragment
      rfl
    | spread serial name' condition typeName inner => rw [hmakes.of_spread]

mutual
theorem Makes.wellPaged {selection : Selection} {scope : Scope} {made : Selection}
    (h : scope.Makes selection made) : made.wellPaged = selection.wellPaged := by
  cases selection with
  | leaf field => rw [h.of_leaf]
  | composite field typeName inner =>
    obtain ⟨type, inner', hinner, rfl⟩ := h.of_composite
    unfold Selection.wellPaged showsPages
    simp only [hinner.leads?, RebuildsAll.allWellPaged hinner, allWellPaged, Bool.true_and]
  | inlineFragment condition typeName inner =>
    obtain ⟨target, inner', hinner, rfl⟩ := h.of_inlineFragment
    unfold Selection.wellPaged
    rw [RebuildsAll.allWellPaged hinner, allWellPaged, Bool.true_and]
  | spread serial name condition typeName inner => rw [h.of_spread]

/-- The shape of connections is kept where selections are made anew. -/
theorem RebuildsAll.allWellPaged {selections : List Selection} {scope : Scope}
    {before after : List Selection} (h : scope.RebuildsAll selections before after) :
    Selection.allWellPaged after =
      (Selection.allWellPaged before && Selection.allWellPaged selections) := by
  cases selections with
  | nil =>
    unfold RebuildsAll at h
    rw [h, Selection.allWellPaged, Bool.and_true]
  | cons selection rest =>
    unfold RebuildsAll at h
    obtain ⟨between, hfirst, hrest⟩ := h
    obtain ⟨made, hmade, hfits, rfl⟩ := rebuilds_iff.1 hfirst
    rw [RebuildsAll.allWellPaged hrest, allWellPaged_beside hfits, Makes.wellPaged hmade,
      Selection.allWellPaged, Bool.and_assoc]
end

theorem allWellPaged_opening (scope : Scope) : allWellPaged scope.opening = true := by
  unfold opening
  split <;> split <;> rfl

theorem find?_opened {key : String} (hi : key ≠ "id") (ht : key ≠ typenameField) :
    (scope.opening ++ selections).find? (answers key) = selections.find? (answers key) := by
  rw [List.find?_append, find?_opening hi ht, Option.none_or]

theorem leads?_opened {name : String} {rest : List String} (hi : name ≠ "id")
    (ht : name ≠ typenameField) :
    Selection.leads? (scope.opening ++ selections) (name :: rest) =
      Selection.leads? selections (name :: rest) := by
  unfold Selection.leads?
  rw [find?_opened hi ht]

/-- What the builder puts around the nodes of a connection are pages. -/
theorem showsPages_connectionSet (edges node info : TypeDescriptor) (nodes : List Selection) :
    showsPages (scope.connectionSet edges node info nodes) = true := by
  have hedges : ∀ rest, Selection.leads? (scope.connectionSet edges node info nodes)
      ("edges" :: rest) = Selection.leads? ((scope.within edges).opening ++ [.leaf (.plain "cursor"),
        .composite (.plain "node") node.name nodes]) rest :=
    fun rest => leads?_opened (by decide) (by decide)
  have hinfo : ∀ rest, Selection.leads? (scope.connectionSet edges node info nodes)
      ("pageInfo" :: rest) = Selection.leads? ((scope.within info).opening ++
        [.leaf (.plain "hasNextPage"), .leaf (.plain "hasPreviousPage")]) rest :=
    fun rest => leads?_opened (by decide) (by decide)
  simp only [showsPages, pagePaths, List.all_cons, List.all_nil, hedges, hinfo]
  rw [leads?_opened (by decide) (by decide), leads?_opened (by decide) (by decide),
    leads?_opened (by decide) (by decide), leads?_opened (by decide) (by decide)]
  rfl

theorem allWellPaged_connectionSet (edges node info : TypeDescriptor) (nodes : List Selection) :
    allWellPaged (scope.connectionSet edges node info nodes) = allWellPaged nodes := by
  simp [connectionSet, allWellPaged_append, allWellPaged, Selection.wellPaged,
    allWellPaged_opening, Field.plain, Field.ofOptions]

theorem accepted_prefix (scope : Scope) (before selections : List Selection) :
    scope.accepted before selections <+: selections := by
  induction selections generalizing before with
  | nil => exact List.prefix_rfl
  | cons selection rest ih =>
    unfold accepted
    split
    · exact (List.prefix_cons_inj selection).2 (ih _)
    · exact List.nil_prefix

end Scope

namespace Step

open Selection

mutual
/-- The finished selections in the step are well paged. -/
def wellPaged : Step → Bool
  | .object _ _ body => allWellPaged body
  | .connection _ _ body => allWellPaged body
  | .fragmentOn _ body => allWellPaged body
  | .selection made => made.wellPaged
  | .extend set => Selection.allWellPaged set.selections
  | .attempt step => wellPaged step
  | .field _ _ => true
  | .spread _ => true
  | .snapshot => true

def allWellPaged : List Step → Bool
  | [] => true
  | step :: rest => wellPaged step && allWellPaged rest
end

theorem allWellPaged_append (steps more : List Step) :
    allWellPaged (steps ++ more) = (allWellPaged steps && allWellPaged more) := by
  induction steps with
  | nil => rfl
  | cons step rest ih => simp only [List.cons_append, allWellPaged, ih, Bool.and_assoc]

mutual
theorem wellPaged_of_guided {step : Step} (h : step.guided = true) : step.wellPaged = true := by
  cases step with
  | object name options body => exact allWellPaged_of_allGuided h
  | connection name options body => exact allWellPaged_of_allGuided h
  | fragmentOn typeName body => exact allWellPaged_of_allGuided h
  | selection made => cases h
  | extend set => cases h
  | attempt step => exact @wellPaged_of_guided step h
  | field name options => rfl
  | spread fragment => rfl
  | snapshot => rfl

theorem allWellPaged_of_allGuided {steps : List Step} (h : allGuided steps = true) :
    allWellPaged steps = true := by
  cases steps with
  | nil => rfl
  | cons step rest =>
    unfold allGuided at h
    unfold allWellPaged
    rw [Bool.and_eq_true] at h
    rw [wellPaged_of_guided h.1, allWellPaged_of_allGuided h.2, Bool.and_self]
end

theorem allWellPaged_remains {step : Step} (h : step.wellPaged = true) (scope : Scope)
    (before : List Selection) : allWellPaged (step.remains scope before) = true := by
  cases step with
  | extend set =>
    have hset := allWellPaged_iff.1 h
    have haccepted : Selection.allWellPaged (scope.accepted before set.selections) = true :=
      allWellPaged_iff.2 fun selection hs =>
        hset selection ((scope.accepted_prefix before set.selections).subset hs)
    simpa [remains, allWellPaged, wellPaged] using haccepted
  | _ => rfl

mutual
theorem allWellPaged_kept {step : Step} (h : step.wellPaged = true) (scope : Scope)
    (before : List Selection) : allWellPaged (kept scope before step) = true := by
  cases step with
  | object name options body =>
    unfold kept
    cases scope.typeOf? name with
    | none => rfl
    | some type => simpa [allWellPaged, wellPaged] using allWellPaged_keptAll h (scope.within type) _
  | connection name options body =>
    unfold kept
    cases scope.nodeOf? name with
    | none => rfl
    | some node => simpa [allWellPaged, wellPaged] using allWellPaged_keptAll h (scope.within node) _
  | fragmentOn typeName body =>
    unfold kept
    cases scope.bundle.get? typeName with
    | none => rfl
    | some target =>
      simpa [allWellPaged, wellPaged] using allWellPaged_keptAll h (scope.within target) _
  | attempt step =>
    have hstep : step.wellPaged = true := h
    unfold kept
    rcases outcome scope step before with ⟨e | _, after⟩
    · exact allWellPaged_remains hstep scope before
    · exact allWellPaged_kept hstep scope before
  | _ =>
    unfold kept
    simpa [allWellPaged] using h

/-- Leaving failed steps out leaves no other finished selections. -/
theorem allWellPaged_keptAll {steps : List Step} (h : allWellPaged steps = true) (scope : Scope)
    (before : List Selection) : allWellPaged (keptAll scope before steps) = true := by
  cases steps with
  | nil => rfl
  | cons step rest =>
    unfold allWellPaged at h
    unfold keptAll
    rw [Bool.and_eq_true] at h
    rw [allWellPaged_append, allWellPaged_kept h.1, allWellPaged_keptAll h.2, Bool.and_self]
end

/-- The statement that is carried through a program: what is well paged are the selections that stand
there and those that are added. -/
def Pages (before : List Selection) (added : Bool) (after : List Selection) : Prop :=
  Selection.allWellPaged after = (Selection.allWellPaged before && added)

theorem pages_opening {scope : Scope} {added : Bool} {after : List Selection}
    (h : Pages scope.opening added after) : Selection.allWellPaged after = added := by
  rw [h, scope.allWellPaged_opening, Bool.true_and]

mutual
theorem Made.wellPaged {step : Step} {scope : Scope} {made : Selection} (hs : step.strict = true)
    (h : Made scope step made) : made.wellPaged = step.wellPaged := by
  cases step with
  | field name options =>
    cases h with
    | field makes => exact makes.wellPaged
  | object name options body =>
    cases h with
    | object offers leaves =>
      have hinner := pages_opening (pages_of_outcomeAll hs leaves)
      rw [Selection.wellPaged, hinner]
      rfl
  | connection name options body =>
    cases h with
    | connection offers connects leaves =>
      have hnodes := pages_opening (pages_of_outcomeAll hs leaves)
      rw [Selection.wellPaged, Scope.allWellPaged_connectionSet, Scope.showsPages_connectionSet, hnodes]
      rfl
  | fragmentOn condition body =>
    cases h with
    | fragmentOn admits leaves =>
      have hinner := pages_of_outcomeAll hs leaves
      rw [Selection.wellPaged, hinner, Selection.allWellPaged, Bool.true_and]
      rfl
  | spread fragment =>
    cases h with
    | spread makes => exact makes.wellPaged
  | selection given =>
    cases h with
    | selection makes => exact makes.wellPaged
  | extend set => cases h
  | attempt step => cases h
  | snapshot => cases h

/-- What a program that passes over no error makes is well paged exactly if the finished selections in
the program and those that stood there are. -/
theorem pages_of_outcomeAll {steps : List Step} {scope : Scope} {before after : List Selection}
    (hs : allStrict steps = true) (h : outcomeAll scope steps before = (.ok (), after)) :
    Pages before (allWellPaged steps) after := by
  cases steps with
  | nil =>
    rw [outcomeAll_nil] at h
    obtain rfl := congrArg Prod.snd h
    exact (Bool.and_true _).symm
  | cons step rest =>
    unfold allStrict at hs
    rw [Bool.and_eq_true] at hs
    rw [outcomeAll_cons] at h
    rcases hfirst : outcome scope step before with ⟨e | _, between⟩ <;> rw [hfirst] at h
    · cases congrArg Prod.fst h
    · have hstep : Pages before step.wellPaged between := by
        cases ends_of_outcome hfirst with
        | made makes fits =>
          rw [← Made.wellPaged hs.1 makes]
          exact allWellPaged_beside fits
        | extend rebuilds => exact rebuilds.allWellPaged
        | attempt ends => cases hs.1
        | passed stops => cases hs.1
        | snapshot => exact (Bool.and_true _).symm
      have hrest := pages_of_outcomeAll hs.2 h
      unfold Pages at hstep hrest ⊢
      rw [hrest, hstep, allWellPaged, Bool.and_assoc]
end

end Step

namespace Scope

open Selection

/-- The set of a connection on the scope: the type declares edges and page info, what pages are made of
is selected, and the nodes are on the type of the nodes of the edges. -/
structure Pages (scope : Scope) (inner : List Selection) (nodes : SelectionSet) : Prop where
  declaresEdges : (scope.type.field? "edges").isSome = true
  declaresInfo : (scope.type.field? "pageInfo").isSome = true
  selected : ∀ path ∈ pagePaths, (Selection.leads? inner path).isSome = true
  onNodes : ∃ edges node, scope.typeOf? "edges" = some edges ∧
    (scope.within edges).typeOf? "node" = some node ∧ nodes.typeName = node.name

/-- Every field in the set that is marked as a connection, at any depth, has the set of one. -/
def ShapedOn (scope : Scope) (set : SelectionSet) : Prop :=
  ∀ child below, scope.Contains set child below → ∀ selection ∈ below.selections, ∀ field,
    selection.field? = some field → field.connection = true →
      ∃ type inner nodes, selection = .composite field type.name inner ∧
        child.typeOf? field.name = some type ∧ selection.connectionNodeSet? = some nodes ∧
        (child.within type).Pages inner nodes

end Scope

namespace Selection

variable {selections : List Selection} {name : String} {rest : List String}

/-- A path of several fields begins with a composite one. -/
theorem exists_of_leads?_cons {next : String}
    (h : (leads? selections (name :: next :: rest)).isSome = true) :
    ∃ field typeName wanted,
      selections.find? (answers name) = some (.composite field typeName wanted) ∧
      field.name = name ∧ leads? selections (name :: next :: rest) = leads? wanted (next :: rest) := by
  rw [leads?] at h ⊢
  cases hfind : selections.find? (answers name) with
  | none => simp [hfind] at h
  | some found =>
    rw [hfind] at h
    cases found with
    | composite field typeName wanted =>
      by_cases hname : field.name = name
      · exact ⟨field, typeName, wanted, rfl, hname, if_pos hname⟩
      · simp [hname] at h
    | _ => simp at h

/-- The last field of a path has a set below it, or none. -/
theorem leads?_singleton_eq_true : leads? selections [name] = some true ↔
    ∃ field typeName wanted,
      selections.find? (answers name) = some (.composite field typeName wanted) ∧
      field.name = name := by
  rw [leads?]
  cases hfind : selections.find? (answers name) with
  | none => simp
  | some found => cases found <;> simp [leads?]

end Selection

namespace Scope

open Selection

variable {scope : Scope} {inner : List Selection} {nodes : SelectionSet}

theorem Pages.showsPages {typeName : String} (h : scope.Pages inner nodes)
    (hn : SelectionSet.nodeSet? ⟨typeName, inner⟩ = some nodes) : showsPages inner = true := by
  have hpath := h.selected ["edges", "node"] (by simp [pagePaths])
  obtain ⟨field, name, wanted, hedges, hname, hleads⟩ := exists_of_leads?_cons hpath
  have hbelow : SelectionSet.below? ⟨name, wanted⟩ "node" = some nodes := by
    simpa [SelectionSet.nodeSet?, SelectionSet.below?, SelectionSet.find?, hedges, fieldSet?] using hn
  obtain ⟨found, hfound, hset⟩ := Option.bind_eq_some_iff.1 hbelow
  have hnode : Selection.leads? wanted ["node"] = some true := by
    change wanted.find? (answers "node") = some found at hfound
    rw [hleads, Selection.leads?, hfound] at hpath
    rw [Selection.leads?, hfound]
    cases found with
    | composite field' typeName' wanted' =>
      by_cases hn : field'.name = "node"
      · simp [hn, Selection.leads?]
      · simp [hn] at hpath
    | _ => cases hset
  rw [Selection.showsPages, hleads, hnode, Bool.and_eq_true, List.all_eq_true]
  exact ⟨h.selected, rfl⟩

theorem pages_of_showsPages {raw : Prop} {shared : Fragment → Prop} (typeName : String)
    (h : Grown raw shared scope inner) (hs : showsPages inner = true) :
    ∃ nodes, SelectionSet.nodeSet? ⟨typeName, inner⟩ = some nodes ∧ scope.Pages inner nodes := by
  rw [showsPages, Bool.and_eq_true, List.all_eq_true, beq_iff_eq] at hs
  obtain ⟨hpaths, hnodes⟩ := hs
  obtain ⟨field, name, wanted, hedges, hname, hleads⟩ :=
    exists_of_leads?_cons (hpaths ["edges", "node"] (by simp [pagePaths]))
  obtain ⟨field', name', nodes, hnode, hname'⟩ := leads?_singleton_eq_true.1 (hleads ▸ hnodes)
  obtain ⟨info, _, _, hinfo, hinfoName, -⟩ :=
    exists_of_leads?_cons (hpaths ["pageInfo", "hasNextPage"] (by simp [pagePaths]))
  -- a grown set has each field on the type that offers it
  obtain ⟨edges, hoffers, rfl, hbelow⟩ := h.of_mem (List.mem_of_find?_eq_some hedges)
  obtain ⟨node, hoffers', rfl, -⟩ := hbelow.of_mem (List.mem_of_find?_eq_some hnode)
  obtain ⟨-, ⟨⟨-, declaredInfo, hdeclared, -⟩, -⟩, -⟩ := h.of_mem (List.mem_of_find?_eq_some hinfo)
  have hedgesType := hoffers.1.typeOf?
  have hnodeType := hoffers'.1.typeOf?
  obtain ⟨⟨-, declaredEdges, hdeclared', -⟩, -⟩ := hoffers
  rw [hname] at hedgesType hdeclared'
  rw [hname'] at hnodeType
  rw [hinfoName] at hdeclared
  refine ⟨⟨node.name, nodes⟩, ?_, ⟨?_, ?_, hpaths, edges, node, hedgesType, hnodeType, rfl⟩⟩
  · simp [SelectionSet.nodeSet?, SelectionSet.below?, SelectionSet.find?, hedges, hnode, fieldSet?]
  · rw [hdeclared', Option.isSome_some]
  · rw [hdeclared, Option.isSome_some]

end Scope

namespace Grown

open Selection

variable {raw : Prop} {shared : Fragment → Prop}

theorem shapedOn_of_allWellPaged {scope : Scope} {set : SelectionSet}
    (h : Grown raw shared scope set.selections) (hp : allWellPaged set.selections = true) :
    scope.ShapedOn set := by
  intro child below hc selection hs field hfield hmarked
  -- along the way from the set to the one below; both facts about the set pass to the next set
  induction hc with
  | self scope set =>
    have hpaged := allWellPaged_iff.1 hp selection hs
    have hpart := h.of_mem hs
    cases selection with
    | leaf other =>
      obtain rfl := Option.some.inj hfield
      rw [wellPaged, hmarked] at hpaged
      cases hpaged
    | composite other typeName inner =>
      obtain rfl := Option.some.inj hfield
      obtain ⟨type, offered, rfl, hinner⟩ := hpart
      rw [wellPaged, hmarked, Bool.not_true, Bool.false_or, Bool.and_eq_true] at hpaged
      obtain ⟨nodes, hnodes, hpages⟩ := Scope.pages_of_showsPages type.name hinner hpaged.1
      refine ⟨type, inner, nodes, rfl, offered.1.typeOf?, ?_, hpages⟩
      rw [connectionNodeSet?, if_pos hmarked, hnodes]
    | _ => cases hfield
  | field selected returned deeper ih =>
    obtain ⟨type, offered, rfl, hinner⟩ := h.of_mem selected
    obtain rfl := Option.some.inj (returned.symm.trans offered.1.typeOf?)
    have hpaged := allWellPaged_iff.1 hp _ selected
    rw [wellPaged, Bool.and_eq_true] at hpaged
    exact ih hinner hpaged.2 hs
  | inlineFragment selected found deeper ih =>
    obtain ⟨target, admitted, rfl, hinner⟩ := h.of_mem selected
    obtain rfl := Option.some.inj (found.symm.trans admitted.1)
    exact ih hinner (allWellPaged_iff.1 hp _ selected) hs

mutual
theorem wellPaged_of_shapedOn {selection : Selection} {scope : Scope} (set : SelectionSet)
    (h : Grown raw shared scope set.selections) (hs : scope.ShapedOn set)
    (hm : selection ∈ set.selections) : selection.wellPaged = true := by
  have hshape := hs scope set (.self scope set) selection hm
  have hpart := h.of_mem hm
  cases selection with
  | leaf field =>
    rw [wellPaged, Bool.not_eq_true']
    by_contra hmarked
    obtain ⟨type, inner, -, himpossible, -⟩ := hshape field rfl (by simpa using hmarked)
    cases himpossible
  | composite field typeName inner =>
    obtain ⟨type, offered, rfl, hinner⟩ := hpart
    have hbelow : allWellPaged inner = true :=
      allWellPaged_of_shapedOn ⟨type.name, inner⟩ hinner
        (fun child below hc => hs child below (.field hm offered.1.typeOf? hc)) (fun _ h => h)
    rw [wellPaged, hbelow, Bool.and_true, Bool.or_eq_true, Bool.not_eq_true']
    refine (Bool.eq_false_or_eq_true field.connection).symm.imp_right fun hmarked => ?_
    obtain ⟨type', inner', nodes, hsame, -, hnodes, hpages⟩ := hshape field rfl hmarked
    obtain ⟨-, -, rfl⟩ := Selection.composite.inj hsame
    rw [connectionNodeSet?, if_pos hmarked] at hnodes
    exact hpages.showsPages hnodes
  | inlineFragment condition typeName inner =>
    obtain ⟨target, admitted, rfl, hinner⟩ := hpart
    exact allWellPaged_of_shapedOn ⟨target.name, inner⟩ hinner
      (fun child below hc => hs child below (.inlineFragment hm admitted.1 hc)) (fun _ h => h)
  | spread serial name condition typeName inner => rfl

theorem allWellPaged_of_shapedOn {selections : List Selection} {scope : Scope} (set : SelectionSet)
    (h : Grown raw shared scope set.selections) (hs : scope.ShapedOn set)
    (hm : selections ⊆ set.selections) : allWellPaged selections = true := by
  cases selections with
  | nil => rfl
  | cons selection rest =>
    rw [allWellPaged, wellPaged_of_shapedOn set h hs (hm List.mem_cons_self),
      allWellPaged_of_shapedOn set h hs fun _ h => hm (List.mem_cons_of_mem _ h), Bool.and_self]
end

/-- In a grown set all connections have their shape exactly if it is well paged. -/
theorem shapedOn_iff {scope : Scope} {set : SelectionSet}
    (h : Grown raw shared scope set.selections) :
    scope.ShapedOn set ↔ allWellPaged set.selections = true :=
  ⟨fun hs => allWellPaged_of_shapedOn set h hs fun _ h => h, shapedOn_of_allWellPaged h⟩

end Grown

namespace Scope

variable {scope : Scope} {before : List Selection}

/-- Whether an empty set takes a finished field has nothing to do with the mark of the field. -/
theorem result_marked (scope : Scope) (field : Field) (set? : Option SelectionSet)
    (connection : Bool) :
    (outcome (scope.addSelection (.ofField { field with connection } set?)) []).1 =
      (outcome (scope.addSelection (.ofField field set?)) []).1 := by
  have hpush : ∀ field selection, Blind (scope.pushField field selection) :=
    (parallel_blind scope).pushField scope.type
  cases set? with
  | none =>
    simp only [Selection.ofField, addSelection]
    refine result_bind_congr (runs_resolve field.name field.options) ?_ ?_ ?_
    · rintro (_ | type)
      · exact hpush _ _
      · exact blind_ite (fun _ => rfl) (hpush _ _)
    · rintro (_ | type)
      · exact hpush _ _
      · exact blind_ite (fun _ => rfl) (hpush _ _)
    · rintro type _ ⟨-, rfl⟩
      cases type with
      | none => rfl
      | some type => cases hc : type.isComposite <;> simp only [hc] <;> rfl
  | some set =>
    simp only [Selection.ofField, addSelection]
    have hrest : ∀ (field' : Field) (type : TypeDescriptor), Blind (do
        let rebuilt ← nested (do
          visit type.name
          (scope.within type).addSelections set.selections)
        if rebuilt.isEmpty then throw (scope.subselectionRequired field.name type)
        scope.pushField field' (.composite field' type.name rebuilt)) := fun field' type =>
      blind_bind (blind_nested (blind_bind (fun _ => rfl) fun _ => blind_addSelections _ _))
        fun _ => blind_pushMade _ _ _ _
    refine result_bind_congr (runs_compositeType field.name field.options) (hrest _) (hrest field) ?_
    rintro type _ ⟨-, rfl⟩
    refine result_bind_congr (runs_nested (runs_any _)) (fun _ => blind_pushMade _ _ _ _)
      (fun _ => blind_pushMade _ _ _ _) ?_
    rintro rebuilt _ ⟨-, rfl⟩
    cases rebuilt <;> rfl

theorem runs_notAConnection {name : String} {options : FieldOptions} {type : TypeDescriptor}
    (body : Scope → Building Unit) (ho : scope.OffersObject name options.arguments type)
    (hn : (type.field? "edges").isNone = true ∨ (type.field? "pageInfo").isNone = true) :
    Runs before (scope.addConnection name options body) (fun _ _ => False)
      (fun e s => e = .notAConnection scope.type.name name type.name ∧ s = before) := by
  refine runs_bind (runs_mono (runs_compositeType name options) (fun _ _ h => h) ?_) ?_
  · exact fun _ _ h => absurd ho (h.1 type)
  · rintro type' _ ⟨ho', rfl⟩
    obtain rfl := Offers.unique ho.1 ho'.1
    rw [if_pos (by simpa using hn)]
    exact runs_throw ⟨rfl, rfl⟩

end Scope

theorem Step.outcome_notAConnection {scope : Scope} {name : String} {options : FieldOptions}
    {before : List Selection} {type : TypeDescriptor} (body : List Step)
    (ho : scope.OffersObject name options.arguments type)
    (hn : (type.field? "edges").isNone = true ∨ (type.field? "pageInfo").isNone = true) :
    outcome scope (.connection name options body) before =
      (.error (.notAConnection scope.type.name name type.name), before) := by
  have hrun : Runs before (scope.addConnection name options fun child => runAll child body) _ _ :=
    Scope.runs_notAConnection _ ho hn
  have houtcome := hrun.outcome
  unfold outcome
  rw [run, outcome_journaled]
  rcases h : Building.outcome (scope.addConnection name options fun child => runAll child body)
    before with ⟨e | _, after⟩
  · rw [h] at houtcome
    obtain ⟨rfl, rfl⟩ := houtcome
    rfl
  · rw [h] at houtcome
    exact houtcome.elim

namespace Scope

/-- How the connections in the set that a program builds come by their shape. The bodies of fragments are
not the program's: it only names them. -/
structure Shapes (scope : Scope) (program : List Step) (set : SelectionSet) : Prop where
  exactly : scope.ShapedOn set ↔
    Step.allWellPaged (Step.keptAll scope scope.opening program) = true
  wellPaged : Step.allWellPaged program = true → scope.ShapedOn set
  guided : Step.allGuided program = true → scope.ShapedOn set
  spread : ∀ fragment ∈ Selection.spreadFragmentsOfAll set.selections,
    fragment ∈ Step.fragmentsOfAll program

theorem shapes_of_buildSet {scope : Scope} {program : List Step} {set : SelectionSet}
    (h : (OperationDraft.buildSet scope program).result = .ok set) : scope.Shapes program set := by
  obtain ⟨-, -, -, hgrown, -⟩ := OperationDraft.grown_of_buildSet True
    (fun fragment hf => hf : ∀ fragment ∈ Step.fragmentsOfAll program,
      fragment ∈ Step.fragmentsOfAll program) (.inl trivial) h
  have hkept : (OperationDraft.buildSet scope (Step.keptAll scope scope.opening program)).result =
      .ok set :=
    (OperationDraft.result_buildSet_congr
      (Step.outcomeAll_keptAll scope scope.opening program)).trans h
  -- the kept program passes over no error, so every finished selection in it is added
  have hpages : Selection.allWellPaged set.selections =
      Step.allWellPaged (Step.keptAll scope scope.opening program) := by
    have hrun := OperationDraft.buildSet_of_runs fun _ : scope.Opens => runs_mono
      (Step.runs_outcomeAll scope (Step.keptAll scope scope.opening program) scope.opening)
      (fun _ _ h => Step.pages_opening
        (Step.pages_of_outcomeAll (Step.allStrict_keptAll scope scope.opening program) h)) fun _ _ h => h
    rw [hkept] at hrun
    exact hrun.2.2.2
  have hexactly : scope.ShapedOn set ↔
      Step.allWellPaged (Step.keptAll scope scope.opening program) = true := by
    rw [hgrown.shapedOn_iff, hpages]
  have hwellPaged : Step.allWellPaged program = true → scope.ShapedOn set := fun hp =>
    hexactly.2 (Step.allWellPaged_keptAll hp scope scope.opening)
  exact ⟨hexactly, hwellPaged, fun hg => hwellPaged (Step.allWellPaged_of_allGuided hg),
    hgrown.shared_of_mem⟩

end Scope

/-- In the sets of operations and of fragments all connections have the shape of one if and only if the
finished selections do that the program adds, those left out that failed; so it is with every program
that adds no finished selections. An empty set takes a finished field or refuses it, with the same error,
whether it is marked as a connection or not, while the step for connections refuses a type without edges
or page info. -/
theorem Bundle.connections_shaped_iff (bundle : Bundle) :
    (∀ (draft : OperationDraft) (operation : Operation),
      (draft.build bundle).result = .ok operation →
        ∃ scope, draft.scope bundle = .ok scope ∧ scope.Shapes draft.program operation.set) ∧
    (∀ (document : DocumentDraft) (serial : Nat) (draft : FragmentDraft) (fragment : Fragment),
      document.bundle = bundle → (document.buildFragment serial draft).result = .ok fragment →
        ∃ target, bundle.get? draft.typeName = some target ∧
          Scope.Shapes ⟨bundle, [], target⟩ draft.program fragment.set) ∧
    (∀ (scope : Scope) (field : Field) (set? : Option SelectionSet) (connection : Bool),
      (Step.outcome scope (.selection (.ofField { field with connection } set?)) []).1 =
        (Step.outcome scope (.selection (.ofField field set?)) []).1) ∧
    ∀ (scope : Scope) (name : String) (options : FieldOptions) (body : List Step)
      (before : List Selection) (type : TypeDescriptor),
      scope.OffersObject name options.arguments type →
      (type.field? "edges").isNone = true ∨ (type.field? "pageInfo").isNone = true →
        Step.outcome scope (.connection name options body) before =
          (.error (.notAConnection scope.type.name name type.name), before) := by
  refine ⟨?_, ?_, ?_, ?_⟩
  · intro draft operation h
    obtain ⟨scope, set, hscope, hset, rfl⟩ := OperationDraft.build_eq_ok h
    exact ⟨scope, hscope, Scope.shapes_of_buildSet hset⟩
  · rintro document serial draft fragment rfl h
    obtain ⟨target, set, ht, -, -, hset, rfl⟩ := DocumentDraft.buildFragment_eq_ok h
    exact ⟨target, ht, Scope.shapes_of_buildSet hset⟩
  · intro scope field set? connection
    rw [Step.outcome_selection, Step.outcome_selection]
    exact scope.result_marked field set? connection
  · exact fun scope name options body before type => Step.outcome_notAConnection body

/-- A finished selection of products that is marked as a connection and selects pages. -/
def markedProducts : OperationDraft :=
  .ofProgram .query [.object "shop" .none [.selection (.composite ⟨"products", none, [], true⟩ ""
    [.composite (.plain "edges") "" [.leaf (.plain "cursor"),
      .composite (.plain "node") "" [.leaf (.plain "title")]],
     .composite (.plain "pageInfo") "" [.leaf (.plain "hasNextPage"),
      .leaf (.plain "hasPreviousPage")]])]]

theorem markedProducts_shaped :
    (markedProducts.build sampleBundle).result = .ok (markedProducts.built sampleBundle) ∧
      ∃ scope, markedProducts.scope sampleBundle = .ok scope ∧
        scope.ShapedOn (markedProducts.built sampleBundle).set := by
  have hbuilt : (markedProducts.build sampleBundle).result =
      .ok (markedProducts.built sampleBundle) :=
    OperationDraft.build_eq_built (by decide +kernel)
  obtain ⟨scope, hscope, hshapes⟩ := sampleBundle.connections_shaped_iff.1 _ _ hbuilt
  exact ⟨hbuilt, scope, hscope, hshapes.wellPaged (by decide +kernel)⟩

/-- A finished selection of the shop is taken as a connection, though there is no node set in it, and the
step for connections refuses the shop. -/
theorem marked_shop_taken :
    let marked : Selection := .composite ⟨"shop", none, [], true⟩ "Shop" [.leaf (.plain "name")]
    ((OperationDraft.ofProgram .query [.selection marked]).build sampleBundle).result =
        .ok ⟨.query, none, [], [], ⟨"Query", [marked]⟩⟩ ∧
      marked.connectionNodeSet? = none ∧
      ((OperationDraft.ofProgram .query [.connection "shop" .none [.field "name" .none]]).build
        sampleBundle).result = .error (.notAConnection "Query" "shop" "Shop") :=
  ⟨rfl, rfl, rfl⟩

end GraphQLClient
