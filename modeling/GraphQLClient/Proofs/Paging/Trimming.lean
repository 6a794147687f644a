import GraphQLClient.Proofs.Building.Revalidation
import GraphQLClient.Proofs.Paging.Pruning
import GraphQLClient.Proofs.Paging.Trails

set_option autoImplicit false

/-!
# Pruned sets and their trails

Pruning to the keys of a trail keeps the ends of the trail, with the cursor. When the pruned set is
then added to a scope, fields that come again are dropped, but the first end stays the first.
-/

namespace GraphQLClient.Selection

variable {bundle : Bundle} {cursor : String}

/-- What pruning to the keys of a trail keeps. -/
def trim (cursor : String) (leg : Leg) (rest : List Leg) (selections : List Selection) :
    List Selection :=
  (pruneEach cursor leg.key (rest.map Leg.key) selections).map Prod.fst

mutual
theorem pruneOne_leads {selection : Selection} {leg : Leg} {rest : List Leg}
    (ha : Along bundle (leg :: rest) [selection]) (he : ends bundle (leg :: rest) [selection] ≠ []) :
    ∃ kept, pruneOne cursor leg.key (rest.map Leg.key) selection = some (kept, true) := by
  cases selection with
  | leaf field =>
    by_cases hk : field.responseKey = leg.key
    · have hm : Selection.leaf field ∈ taken bundle leg [.leaf field] :=
        mem_taken List.mem_cons_self rfl hk
      exact (ha _ hm).1.elim
    · exact absurd (ends_of_taken_eq_nil (taken_leaf hk)) he
  | composite field typeName selections =>
    by_cases hk : field.responseKey = leg.key
    · have hfits := ha _ (mem_taken List.mem_cons_self rfl hk)
      cases rest with
      | nil => exact ⟨_, pruneOne_end typeName selections hk⟩
      | cons next rest =>
        rw [ends_next, taken_composite typeName selections hk, List.flatMap_singleton] at he
        have hleads : (pruneEach cursor next.key (rest.map Leg.key) selections).any (·.2) = true :=
          pruneEach_leads hfits.2 he
        rw [List.map_cons, pruneOne_through typeName selections _ _ hk hfits.1.2,
          keptIfFound_eq_some hleads]
        exact ⟨_, rfl⟩
    · exact absurd (ends_of_taken_eq_nil (taken_composite_of_ne typeName selections hk)) he
  | inlineFragment condition typeName selections =>
    by_cases hc : Collected.applies bundle condition leg.type = true
    · have htaken : taken bundle leg [.inlineFragment condition typeName selections] =
          taken bundle leg selections := by rw [taken_inlineFragment, if_pos hc]
      rw [ends_congr htaken] at he
      have hleads := pruneEach_leads ((along_congr htaken).1 ha) he
      rw [pruneOne, keptIfFound_eq_some hleads]
      exact ⟨_, rfl⟩
    · refine absurd (ends_of_taken_eq_nil ?_) he
      rw [taken_inlineFragment, if_neg hc]
  | spread serial name condition typeName selections =>
    by_cases hc : Collected.applies bundle condition leg.type = true
    · have htaken : taken bundle leg [.spread serial name condition typeName selections] =
          taken bundle leg selections := by rw [taken_spread, if_pos hc]
      rw [ends_congr htaken] at he
      have hleads := pruneEach_leads ((along_congr htaken).1 ha) he
      rw [pruneOne, keptIfFound_eq_some hleads]
      exact ⟨_, rfl⟩
    · refine absurd (ends_of_taken_eq_nil ?_) he
      rw [taken_spread, if_neg hc]

/-- A trail that ends somewhere is found by pruning. -/
theorem pruneEach_leads {selections : List Selection} {leg : Leg} {rest : List Leg}
    (ha : Along bundle (leg :: rest) selections) (he : ends bundle (leg :: rest) selections ≠ []) :
    (pruneEach cursor leg.key (rest.map Leg.key) selections).any (·.2) = true := by
  cases selections with
  | nil => exact absurd (ends_of_taken_eq_nil rfl) he
  | cons selection others =>
    rw [along_cons] at ha
    rw [pruneEach, List.any_append, Bool.or_eq_true]
    by_cases hfirst : ends bundle (leg :: rest) [selection] = []
    · rw [ends_cons, hfirst, List.nil_append] at he
      exact .inr (pruneEach_leads ha.2 he)
    · obtain ⟨kept, hkept⟩ := pruneOne_leads ha.1 hfirst
      exact .inl (by rw [hkept]; rfl)
end

/-- The set `after` goes on from `before` with what a trail finds in `selections`. -/
structure Follows (bundle : Bundle) (cursor : String) (trail : List Leg)
    (before selections after : List Selection) : Prop where
  along : Along bundle trail after
  head : (ends bundle trail after).head? = ((ends bundle trail before).head?).or
    (((ends bundle trail selections).head?).map (withCursor cursor))

variable {leg : Leg} {rest : List Leg} {before between after selections others : List Selection}

theorem Follows.refl (ha : Along bundle (leg :: rest) before)
    (he : ends bundle (leg :: rest) selections = []) :
    Follows bundle cursor (leg :: rest) before selections before :=
  ⟨ha, by rw [he]; simp⟩

theorem Follows.trans {trail : List Leg} (h : Follows bundle cursor trail before selections between)
    (h' : Follows bundle cursor trail between others after) :
    Follows bundle cursor trail before (selections ++ others) after := by
  refine ⟨h'.along, ?_⟩
  rw [h'.head, h.head, ends_append, List.head?_append, Option.map_or, Option.or_assoc]

/-- Where the trail found nothing before, its first end is that of `selections`, with the cursor. -/
theorem Follows.head?_ends {selection : Selection}
    (h : Follows bundle cursor (leg :: rest) before selections after)
    (he : (ends bundle (leg :: rest) selections).head? = some selection)
    (hb : taken bundle leg before = []) :
    (ends bundle (leg :: rest) after).head? = some (selection.withCursor cursor) := by
  rw [h.head, ends_of_taken_eq_nil hb, he]
  rfl

/-- A field on the trail is added, unless the same field is there already. -/
theorem Follows.settled {field : Field} {typeName : String} {inner : List Selection}
    (ha : Along bundle (leg :: rest) before)
    (hnew : Along bundle (leg :: rest) [.composite field typeName inner])
    (hfits : Fits before leg.key (.composite field typeName inner))
    (hhead : (ends bundle (leg :: rest) [.composite field typeName inner]).head? =
      ((ends bundle (leg :: rest) selections).head?).map (withCursor cursor)) :
    Follows bundle cursor (leg :: rest) before selections
      (Selection.settled before leg.key (.composite field typeName inner)) := by
  cases hf : before.find? (answers leg.key) with
  | none =>
    rw [settled_of_find?_eq_none hf]
    refine ⟨along_append.2 ⟨ha, hnew⟩, ?_⟩
    rw [ends_append, List.head?_append, hhead]
  | some found =>
    have hsettled : Selection.settled before leg.key (.composite field typeName inner) = before := by
      rw [Selection.settled, hf]
      rfl
    rw [hsettled]
    refine ⟨ha, ?_⟩
    cases he : (ends bundle (leg :: rest) before).head? with
    | some first => rfl
    | none =>
      -- The field that is there leads nowhere, and so does the same field.
      have hsame := hfits found hf
      obtain ⟨front, back, rfl, -⟩ := List.find?_eq_some_iff_append.1 hf |>.2
      rw [List.head?_eq_none_iff, ends_append, List.append_eq_nil_iff, ends_cons,
        List.append_eq_nil_iff] at he
      have hsameEnds : sameAll (ends bundle (leg :: rest) [found])
          (ends bundle (leg :: rest) [.composite field typeName inner]) = true :=
        sameAll_ends _ (by simp only [sameAll, hsame, Bool.and_self])
      rw [he.2.1] at hsameEnds
      rw [eq_nil_of_sameAll hsameEnds] at hhead
      rw [← hhead]
      rfl

/-- At the end of the trail the field is added with the cursor. -/
theorem Follows.reached {field : Field} {typeName : String} {inner : List Selection}
    (hb : Along bundle [leg] before) (hk : field.responseKey = leg.key)
    (hleg : FitsLeg leg true (.composite field typeName inner))
    (hfits : Fits before leg.key (.composite (field.withCursor cursor) typeName inner)) :
    Follows bundle cursor [leg] before [.composite field typeName inner]
      (Selection.settled before leg.key (.composite (field.withCursor cursor) typeName inner)) := by
  have hnew : (field.withCursor cursor).responseKey = leg.key := hk
  refine .settled hb ?_ hfits ?_
  · rw [Along, taken_composite _ _ hnew]
    intro selection hmem
    obtain rfl := List.mem_singleton.1 hmem
    exact ⟨hleg, trivial⟩
  · rw [ends, ends, taken_composite _ _ hnew, taken_composite _ _ hk]
    rfl

/-- Where the trail goes on, the field is added with what follows inside. -/
theorem Follows.through {next : Leg} {field : Field} {typeName : String}
    {inner inner' : List Selection} (hb : Along bundle (leg :: next :: rest) before)
    (hk : field.responseKey = leg.key)
    (hleg : FitsLeg leg false (.composite field typeName inner'))
    (hfits : Fits before leg.key (.composite field typeName inner'))
    (hinner : Follows bundle cursor (next :: rest) [] inner inner') :
    Follows bundle cursor (leg :: next :: rest) before [.composite field typeName inner]
      (Selection.settled before leg.key (.composite field typeName inner')) := by
  refine .settled hb ?_ hfits ?_
  · rw [Along, taken_composite _ _ hk]
    intro selection hmem
    obtain rfl := List.mem_singleton.1 hmem
    exact ⟨hleg, hinner.along⟩
  · rw [ends_next, ends_next, taken_composite _ _ hk, taken_composite _ _ hk,
      List.flatMap_singleton, List.flatMap_singleton]
    have hhead := hinner.head
    rw [ends_of_taken_eq_nil (show taken bundle next [] = [] from rfl)] at hhead
    exact hhead

/-- A selection beside the trail. -/
theorem Follows.beside {key : String} {selection : Selection} (ha : Along bundle (leg :: rest) before)
    (hs : taken bundle leg [selection] = []) :
    Follows bundle cursor (leg :: rest) before [selection]
      (Selection.settled before key selection) := by
  have hends : ends bundle (leg :: rest) [selection] = [] := ends_of_taken_eq_nil hs
  unfold Selection.settled
  split
  · exact .refl ha hends
  · refine ⟨along_append.2 ⟨ha, along_of_taken_eq_nil hs⟩, ?_⟩
    rw [ends_append, hends]
    simp

/-- What is left of a fragment is an inline fragment. -/
theorem Follows.fragment {condition typeName : String} {selection : Selection}
    {inner inner' : List Selection} (ha : Along bundle (leg :: rest) before)
    (hs : taken bundle leg [selection] =
      if Collected.applies bundle condition leg.type then taken bundle leg inner else [])
    (hi : Collected.applies bundle condition leg.type = true →
      Follows bundle cursor (leg :: rest) [] inner inner') :
    Follows bundle cursor (leg :: rest) before [selection]
      (before ++ [.inlineFragment condition typeName inner']) := by
  by_cases hc : Collected.applies bundle condition leg.type = true
  · have h := hi hc
    rw [if_pos hc] at hs
    have hleft : taken bundle leg [.inlineFragment condition typeName inner'] =
        taken bundle leg inner' := by rw [taken_inlineFragment, if_pos hc]
    refine ⟨along_append.2 ⟨ha, (along_congr hleft).2 h.along⟩, ?_⟩
    rw [ends_append, List.head?_append, ends_congr hleft, h.head, ends_congr hs,
      ends_of_taken_eq_nil (show taken bundle leg [] = [] from rfl)]
    rfl
  · rw [if_neg hc] at hs
    have hleft : taken bundle leg [.inlineFragment condition typeName inner'] = [] := by
      rw [taken_inlineFragment, if_neg hc]
    refine ⟨along_append.2 ⟨ha, along_of_taken_eq_nil hleft⟩, ?_⟩
    rw [ends_append, ends_of_taken_eq_nil hleft, ends_of_taken_eq_nil hs]
    simp

/-- What is kept of a fragment is made anew on the type of its condition. -/
theorem Follows.narrowed {scope scope' : Scope} {condition typeName : String}
    {target : TypeDescriptor} {selection : Selection} {inner : List Selection}
    {kept : Selection × Bool} (hs : scope'.bundle = scope.bundle)
    (ht : scope.bundle.get? condition = some target)
    (htaken : taken bundle leg [selection] =
      if Collected.applies bundle condition leg.type then taken bundle leg inner else [])
    (hkept : (keptIfFound typeName (pruneEach cursor leg.key (rest.map Leg.key) inner)).map
      (fun set => (Selection.inlineFragment condition set.typeName set.selections, true)) = some kept)
    (ha : Along bundle (leg :: rest) [selection]) (hb : Along bundle (leg :: rest) before)
    (hr : scope'.Rebuilds kept.1 before after)
    (hi : ∀ inner', (scope'.within target).RebuildsAll (trim cursor leg rest inner) [] inner' →
      Along bundle (leg :: rest) inner → Follows bundle cursor (leg :: rest) [] inner inner') :
    Follows bundle cursor (leg :: rest) before [selection] after := by
  obtain ⟨set, hset, rfl⟩ := Option.map_eq_some_iff.1 hkept
  obtain rfl := eq_of_keptIfFound hset
  unfold Scope.Rebuilds at hr
  obtain ⟨target', inner', ht', hr', -, rfl⟩ := hr
  have htarget := ht'.1
  rw [hs, ht] at htarget
  obtain rfl := Option.some.inj htarget
  obtain rfl : target.name = condition := Bundle.get?_name ht
  refine .fragment hb htaken fun hc => hi inner' hr' ?_
  rw [if_pos hc] at htaken
  exact (along_congr htaken).1 ha

/-- The field at the end of the trail is made anew as it is, with the cursor. -/
theorem Follows.ended {scope scope' : Scope} {field : Field} {type : TypeDescriptor}
    {inner : List Selection} (hs : scope'.bundle = scope.bundle)
    (hm : scope'.typeOf? field.name = some type) (hv : AllValidOn (scope.within type) inner)
    (hd : Distinct inner) (hk : field.responseKey = leg.key)
    (hleg : FitsLeg leg true (.composite field type.name inner)) (hb : Along bundle [leg] before)
    (hr : scope'.Rebuilds (.composite (field.withCursor cursor) type.name inner) before after) :
    Follows bundle cursor [leg] before [.composite field type.name inner] after := by
  unfold Scope.Rebuilds at hr
  obtain ⟨type', inner', ht', hr', rfl⟩ := hr
  obtain rfl := Option.some.inj (ht'.1.1.typeOf?.symm.trans hm)
  have hdistinct : Distinct ([] ++ inner) := hd
  obtain rfl : inner' = inner :=
    Scope.RebuildsAll.eq_of_validOn (Scope.Alike.within hs _) hv hdistinct hr'
  have hnew : (field.withCursor cursor).responseKey = leg.key := hk
  rw [hnew]
  exact .reached hb hk hleg (hnew ▸ ht'.2.2)

/-- A field before the end is made anew around what is made of the rest of the trail. -/
theorem Follows.passed {scope : Scope} {next : Leg} {field : Field} {type : TypeDescriptor}
    {typeName : String} {inner kept : List Selection} (hm : scope.typeOf? field.name = some type)
    (hk : field.responseKey = leg.key)
    (hleg : FitsLeg leg false (.composite field type.name inner))
    (hb : Along bundle (leg :: next :: rest) before)
    (hr : scope.Rebuilds (.composite field typeName kept) before after)
    (hi : ∀ inner', (scope.within type).RebuildsAll kept [] inner' →
      Follows bundle cursor (next :: rest) [] inner inner') :
    Follows bundle cursor (leg :: next :: rest) before [.composite field type.name inner] after := by
  unfold Scope.Rebuilds at hr
  obtain ⟨type', inner', ht', hr', rfl⟩ := hr
  obtain rfl := Option.some.inj (ht'.1.1.typeOf?.symm.trans hm)
  rw [hk]
  exact .through hb hk hleg (hk ▸ ht'.2.2) (hi inner' hr')

/-- The fields selected directly under `key` return the same types in both scopes. -/
def MeetsOn (key : String) (selections : List Selection) (scope scope' : Scope) : Prop :=
  ∀ field typeName inner, Selection.composite field typeName inner ∈ selections →
    field.responseKey = key → scope'.typeOf? field.name = scope.typeOf? field.name

theorem meetsOn_of_alike {key : String} {scope scope' : Scope} (h : scope.Alike scope') :
    MeetsOn key selections scope scope' :=
  fun field _ _ _ _ => h.typeOf? field.name

theorem mem_prune_of_none {selection : Selection} (ha : Along bundle (leg :: rest) [selection])
    (h : pruneOne cursor leg.key (rest.map Leg.key) selection = none) :
    ends bundle (leg :: rest) [selection] = [] := by
  by_cases he : ends bundle (leg :: rest) [selection] = []
  · exact he
  · obtain ⟨kept, hk⟩ : ∃ kept, pruneOne cursor leg.key (rest.map Leg.key) selection =
      some (kept, true) := pruneOne_leads ha he
    rw [h] at hk
    cases hk

mutual
theorem follows_of_rebuilds {selection : Selection} {leg : Leg} {rest : List Leg}
    {scope scope' : Scope} {before after : List Selection} (hs : scope'.bundle = scope.bundle)
    (hm : MeetsOn leg.key [selection] scope scope') (hv : selection.ValidOn scope)
    (ha : Along bundle (leg :: rest) [selection]) (hb : Along bundle (leg :: rest) before)
    (hr : scope'.RebuildsAll
      ((pruneOne cursor leg.key (rest.map Leg.key) selection).toList.map Prod.fst) before after) :
    Follows bundle cursor (leg :: rest) before [selection] after := by
  cases hp : pruneOne cursor leg.key (rest.map Leg.key) selection with
  | none =>
    rw [hp] at hr
    obtain rfl : after = before := by simpa [Scope.RebuildsAll] using hr
    exact .refl hb (mem_prune_of_none ha hp)
  | some kept =>
    rw [hp] at hr
    rw [Option.toList_some, List.map_singleton, Scope.rebuildsAll_singleton] at hr
    cases selection with
    | leaf field =>
      have hk : field.responseKey ≠ leg.key := fun hk =>
        (ha _ (mem_taken List.mem_cons_self rfl hk)).1
      obtain ⟨hk', -, -⟩ | ⟨-, -, rfl⟩ := pruneOne_leaf_cases hp
      · exact absurd hk' hk
      unfold Scope.Rebuilds at hr
      obtain ⟨-, rfl⟩ := hr
      exact .beside hb (taken_leaf hk)
    | composite field typeName inner =>
      by_cases hk : field.responseKey = leg.key
      · unfold ValidOn at hv
        obtain ⟨type, ht, hp', hi⟩ := hv
        obtain rfl : typeName = type.name := hp'.1
        have hfits := ha _ (mem_taken List.mem_cons_self rfl hk)
        have hmeets : scope'.typeOf? field.name = some type :=
          (hm field _ inner List.mem_cons_self hk).trans ht.1.typeOf?
        cases rest with
        | nil =>
          rw [List.map_nil, pruneOne_end _ inner hk] at hp
          obtain rfl := Option.some.inj hp
          exact .ended hs hmeets hi hp'.2.2 hk hfits.1 hb hr
        | cons next rest =>
          rw [List.map_cons, pruneOne_through _ inner _ _ hk hfits.1.2] at hp
          obtain ⟨set, hset, rfl⟩ := Option.map_eq_some_iff.1 hp
          obtain rfl := eq_of_keptIfFound hset
          have halike := Scope.Alike.within hs type
          exact .passed hmeets hk hfits.1 hb hr fun inner' hr' =>
            follows_of_rebuildsAll halike.1 (meetsOn_of_alike halike) hi hfits.2
              (along_of_taken_eq_nil rfl) hr'
      · rw [pruneOne_of_ne typeName inner _ hk] at hp
        cases hp
    | inlineFragment condition typeName inner =>
      unfold ValidOn at hv
      obtain ⟨target, ht, -, hi⟩ := hv
      rw [pruneOne] at hp
      have htaken : taken bundle leg [.inlineFragment condition typeName inner] = _ :=
        taken_inlineFragment condition typeName inner
      have halike : (scope.within target).Alike (scope'.within target) := ⟨hs, rfl⟩
      exact .narrowed hs ht.1 htaken hp ha hb hr fun inner' hr' hinner =>
        follows_of_rebuildsAll halike.1 (meetsOn_of_alike halike) hi hinner
          (along_of_taken_eq_nil rfl) hr'
    | spread serial name condition typeName inner =>
      unfold ValidOn at hv
      obtain ⟨target, ht, -, hi⟩ := hv
      rw [pruneOne] at hp
      have htaken : taken bundle leg [.spread serial name condition typeName inner] = _ :=
        taken_spread serial name condition typeName inner
      have halike : (⟨scope.bundle, [], target⟩ : Scope).Alike (scope'.within target) := ⟨hs, rfl⟩
      exact .narrowed hs ht.1 htaken hp ha hb hr fun inner' hr' hinner =>
        follows_of_rebuildsAll halike.1 (meetsOn_of_alike halike) hi hinner
          (along_of_taken_eq_nil rfl) hr'

theorem follows_of_rebuildsAll {selections : List Selection} {leg : Leg} {rest : List Leg}
    {scope scope' : Scope} {before after : List Selection} (hs : scope'.bundle = scope.bundle)
    (hm : MeetsOn leg.key selections scope scope') (hv : AllValidOn scope selections)
    (ha : Along bundle (leg :: rest) selections) (hb : Along bundle (leg :: rest) before)
    (hr : scope'.RebuildsAll (trim cursor leg rest selections) before after) :
    Follows bundle cursor (leg :: rest) before selections after := by
  cases selections with
  | nil =>
    obtain rfl : after = before := by simpa [Scope.RebuildsAll, trim, pruneEach] using hr
    exact .refl hb (ends_of_taken_eq_nil rfl)
  | cons selection others =>
    rw [along_cons] at ha
    unfold AllValidOn at hv
    rw [trim, pruneEach, List.map_append, Scope.rebuildsAll_append] at hr
    obtain ⟨between, hfirst, hrest⟩ := hr
    have h := follows_of_rebuilds hs
      (fun field typeName inner hmem => hm field typeName inner
        (List.mem_cons.2 (.inl (List.mem_singleton.1 hmem)))) hv.1 ha.1 hb hfirst
    have h' := follows_of_rebuildsAll hs
      (fun field typeName inner hmem => hm field typeName inner (List.mem_cons_of_mem _ hmem))
      hv.2 ha.2 h.along hrest
    exact h.trans h'
end

end GraphQLClient.Selection
