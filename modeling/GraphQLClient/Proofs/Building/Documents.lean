import GraphQLClient.Building.Document
import GraphQLClient.Proofs.Building.Gathering
import GraphQLClient.Proofs.Building.Validity

set_option autoImplicit false

/-!
# Documents hold what their operations spread

Documents over one bundle define fragments and add operations in any order, and operations and bodies
may spread fragments from anywhere. A document never holds two fragments of one name, and it holds
every fragment that was gathered from an operation in it. It holds all that an operation spreads if and
only if the operation is coherent, since only gathered fragments are compared.
-/

namespace GraphQLClient

namespace DocumentDraft

def Distinct (draft : DocumentDraft) : Prop := (draft.fragments.map (·.name)).Nodup

/-- The one fragment of this name is the one that is meant. -/
def Holds (draft : DocumentDraft) (fragment : Fragment) : Prop :=
  ∃ found, draft.fragments.filter (·.name == fragment.name) = [found] ∧ found.Matches fragment

/-- All that operations and fragments of the document spread, at any depth, is held as it is meant. -/
structure Faithful (draft : DocumentDraft) : Prop where
  operations : ∀ operation ∈ draft.operations, ∀ s ∈ operation.reached, draft.Holds s
  fragments : ∀ fragment ∈ draft.fragments, ∀ s ∈ fragment.reached, draft.Holds s

/-- An operation of the document spreads a fragment of this name. -/
def Uses (draft : DocumentDraft) (fragment : Fragment) : Prop :=
  ∃ operation ∈ draft.operations, fragment.name ∈ operation.fragments.map (·.name)

/-- A different fragment has the name. -/
def Clashes (draft : DocumentDraft) (fragment : Fragment) : Prop :=
  ∃ found ∈ draft.fragments, found.name = fragment.name ∧ found.same fragment = false

variable {draft after : DocumentDraft} {fragment found : Fragment}

theorem filter_name_eq {fragments : List Fragment} (hn : (fragments.map (·.name)).Nodup)
    (hf : found ∈ fragments) : fragments.filter (·.name == found.name) = [found] := by
  induction fragments with
  | nil => cases hf
  | cons first rest ih =>
    have hrest := List.nodup_cons.1 hn
    rcases List.mem_cons.1 hf with rfl | hf
    · rw [List.filter_cons_of_pos (by simp), List.filter_eq_nil_iff.2]
      intro other ho heq
      exact hrest.1 (List.mem_map.2 ⟨other, ho, by simpa using heq⟩)
    · rw [List.filter_cons_of_neg, ih hrest.2 hf]
      intro heq
      exact hrest.1 (List.mem_map.2 ⟨found, hf, by simpa using Eq.symm (eq_of_beq heq)⟩)

theorem Distinct.fragment?_eq (hd : draft.Distinct) (hf : found ∈ draft.fragments) :
    draft.fragment? found.name = some found := by
  rw [fragment?, ← List.head?_filter, filter_name_eq hd hf, List.head?_cons]

theorem Distinct.holds_iff (hd : draft.Distinct) :
    draft.Holds fragment ↔ ∃ found ∈ draft.fragments, found.Matches fragment := by
  constructor
  · rintro ⟨found, hf, hm⟩
    exact ⟨found, (List.mem_filter.1 (hf ▸ List.mem_cons_self)).1, hm⟩
  · rintro ⟨found, hf, hm⟩
    exact ⟨found, by rw [← hm.name_eq, filter_name_eq hd hf], hm⟩

theorem Distinct.eq_of_name_eq {other : Fragment} (hd : draft.Distinct) (hf : found ∈ draft.fragments)
    (ho : other ∈ draft.fragments) (hn : found.name = other.name) : found = other := by
  have hsome := hd.fragment?_eq hf
  rw [hn, hd.fragment?_eq ho] at hsome
  exact (Option.some.inj hsome).symm

/-- Fragments came to the document, and their names were free. -/
structure GrowsTo (draft after : DocumentDraft) : Prop where
  operations : after.operations = draft.operations
  distinct : draft.Distinct → after.Distinct
  kept : draft.fragments ⊆ after.fragments

theorem GrowsTo.refl (draft : DocumentDraft) : GrowsTo draft draft := ⟨rfl, id, fun _ h => h⟩

theorem GrowsTo.trans {last : DocumentDraft} (h : GrowsTo draft after) (h' : GrowsTo after last) :
    GrowsTo draft last :=
  ⟨h'.operations.trans h.operations, fun hd => h'.distinct (h.distinct hd),
    fun _ hf => h'.kept (h.kept hf)⟩

theorem growsTo_snoc (hf : draft.fragment? fragment.name = none) :
    GrowsTo draft { draft with fragments := draft.fragments ++ [fragment] } := by
  constructor
  · rfl
  · intro hd
    unfold Distinct
    rw [List.map_append, List.nodup_append]
    refine ⟨hd, by simp, fun name hn other ho hname => ?_⟩
    obtain ⟨held, hh, rfl⟩ := List.mem_map.1 hn
    obtain rfl := List.mem_singleton.1 ho
    have hne := List.find?_eq_none.1 hf held hh
    exact hne (by simpa using hname)
  · exact fun f hf => List.mem_append_left _ hf

theorem growsTo_addFragments (fragments : List Fragment) (draft : DocumentDraft) :
    GrowsTo draft (draft.addFragments fragments).2 := by
  induction fragments generalizing draft with
  | nil => exact .refl draft
  | cons fragment rest ih =>
    unfold addFragments
    cases hf : draft.fragment? fragment.name with
    | none => exact (growsTo_snoc hf).trans (ih _)
    | some found =>
      by_cases hs : found.same fragment = true
      · simpa only [hs, if_true] using ih draft
      · simpa [hs] using GrowsTo.refl draft

theorem growsTo_defineFragment (draft : DocumentDraft) (serial : Nat) (fragment : FragmentDraft) :
    GrowsTo draft (draft.defineFragment serial fragment).2 := by
  cases hb : (draft.buildFragment serial fragment).result with
  | error e => simpa only [defineFragment, hb] using GrowsTo.refl draft
  | ok defined =>
    obtain ⟨target, set, -, -, hfree, -, rfl⟩ := buildFragment_eq_ok hb
    simpa only [defineFragment, hb] using
      @growsTo_snoc draft ⟨serial, fragment.name, target.name, set⟩ hfree

/-- Fragments that were all taken over are held. -/
theorem matches_of_addFragments (fragments : List Fragment) (draft : DocumentDraft)
    (h : (draft.addFragments fragments).1 = .ok ()) :
    ∀ f ∈ fragments, ∃ found ∈ (draft.addFragments fragments).2.fragments, found.Matches f := by
  induction fragments generalizing draft with
  | nil => exact fun _ h => absurd h List.not_mem_nil
  | cons fragment rest ih =>
    unfold addFragments at h ⊢
    rw [List.forall_mem_cons]
    cases hf : draft.fragment? fragment.name with
    | none =>
      simp only [hf] at h ⊢
      have hkept := (growsTo_addFragments rest { draft with fragments := draft.fragments ++ [fragment] }).kept
      exact ⟨⟨fragment, hkept (List.mem_append_right _ List.mem_cons_self), .inl rfl⟩, ih _ h⟩
    | some found =>
      by_cases hs : found.same fragment = true
      · simp only [hf, hs, if_true] at h ⊢
        exact ⟨⟨found, (growsTo_addFragments rest draft).kept (List.mem_of_find?_eq_some hf), .inr hs⟩,
          ih draft h⟩
      · simp [hf, hs] at h

/-- Of fragments with different names, all are taken over or a clash is reported. -/
theorem clashes_of_addFragments (fragments : List Fragment) (draft : DocumentDraft)
    (hd : draft.Distinct) (hn : (fragments.map (·.name)).Nodup) :
    (∀ f ∈ fragments, ¬ draft.Clashes f) ∧ (draft.addFragments fragments).1 = .ok () ∨
      ∃ f ∈ fragments, draft.Clashes f ∧
        (draft.addFragments fragments).1 = .error (.duplicateFragmentName f.name) := by
  induction fragments generalizing draft with
  | nil => exact .inl ⟨fun _ h => absurd h List.not_mem_nil, rfl⟩
  | cons fragment rest ih =>
    have hnew := List.nodup_cons.1 hn
    unfold addFragments
    cases hf : draft.fragment? fragment.name with
    | none =>
      have hfree : ¬ draft.Clashes fragment := by
        rintro ⟨found, hfound, hname, -⟩
        rw [← hname, hd.fragment?_eq hfound] at hf
        cases hf
      -- the fragment that was added has another name than all that follow
      have hclash : ∀ f ∈ rest, (Clashes { draft with fragments := draft.fragments ++ [fragment] } f ↔
          draft.Clashes f) := by
        intro f hmem
        have hne : fragment.name ≠ f.name := fun he => hnew.1 (List.mem_map.2 ⟨f, hmem, he.symm⟩)
        simp only [Clashes, List.mem_append, List.mem_singleton]
        constructor
        · rintro ⟨found, hfound | rfl, hname, hs⟩
          · exact ⟨found, hfound, hname, hs⟩
          · exact absurd hname hne
        · rintro ⟨found, hfound, hname, hs⟩
          exact ⟨found, .inl hfound, hname, hs⟩
      rcases ih _ ((growsTo_snoc hf).distinct hd) hnew.2 with ⟨hall, hok⟩ | ⟨f, hmem, hc, herror⟩
      · refine .inl ⟨?_, hok⟩
        rw [List.forall_mem_cons]
        exact ⟨hfree, fun f hmem hc => hall f hmem ((hclash f hmem).2 hc)⟩
      · exact .inr ⟨f, List.mem_cons_of_mem _ hmem, (hclash f hmem).1 hc, herror⟩
    | some found =>
      have hmem := List.mem_of_find?_eq_some hf
      have hname : found.name = fragment.name := by simpa using List.find?_some hf
      by_cases hs : found.same fragment = true
      · simp only [hs, if_true]
        have hsame : ¬ draft.Clashes fragment := by
          rintro ⟨other, ho, hother, hdiffers⟩
          obtain rfl := hd.eq_of_name_eq hmem ho (hname.trans hother.symm)
          rw [hs] at hdiffers
          cases hdiffers
        rcases ih draft hd hnew.2 with ⟨hall, hok⟩ | ⟨f, hf, hc, herror⟩
        · exact .inl ⟨List.forall_mem_cons.2 ⟨hsame, hall⟩, hok⟩
        · exact .inr ⟨f, List.mem_cons_of_mem _ hf, hc, herror⟩
      · refine .inr ⟨fragment, List.mem_cons_self, ⟨found, hmem, hname, by simpa using hs⟩, ?_⟩
        simp only [hs]
        rfl

/-- Adding an operation fails on its name or on a fragment, or the operation joins the others. -/
theorem addOperation_cases (draft : DocumentDraft) (operation : Operation) :
    (∃ e, draft.nameError? operation.name = some e ∧
      draft.addOperation operation = (.error e, draft)) ∨
    draft.nameError? operation.name = none ∧
      ((∃ e, (draft.addFragments operation.fragments).1 = .error e ∧
        draft.addOperation operation = (.error e, (draft.addFragments operation.fragments).2)) ∨
      (draft.addFragments operation.fragments).1 = .ok () ∧
        draft.addOperation operation = (.ok (), { (draft.addFragments operation.fragments).2 with
          operations := draft.operations ++ [operation] })) := by
  unfold addOperation
  cases hn : draft.nameError? operation.name with
  | some e => exact .inl ⟨e, rfl, rfl⟩
  | none =>
    refine .inr ⟨rfl, ?_⟩
    have hops := (growsTo_addFragments operation.fragments draft).operations
    rcases hf : draft.addFragments operation.fragments with ⟨e | _, taken⟩
    · exact .inl ⟨e, rfl, rfl⟩
    · rw [hf] at hops
      exact .inr ⟨rfl, by rw [← hops]⟩

/-- What every document keeps: names of fragments are distinct, and what was gathered from its
operations is held. -/
structure Sound (draft : DocumentDraft) : Prop where
  distinct : draft.Distinct
  held : ∀ operation ∈ draft.operations, ∀ c ∈ operation.fragments,
    ∃ found ∈ draft.fragments, found.Matches c

theorem Sound.grown (h : draft.Sound) (he : GrowsTo draft after) : after.Sound := by
  constructor
  · exact he.distinct h.distinct
  · intro operation ho c hc
    rw [he.operations] at ho
    obtain ⟨found, hf, hm⟩ := h.held operation ho c hc
    exact ⟨found, he.kept hf, hm⟩

theorem Sound.addOperation (h : draft.Sound) (operation : Operation) :
    (draft.addOperation operation).2.Sound := by
  have hgrown := h.grown (growsTo_addFragments operation.fragments draft)
  rcases draft.addOperation_cases operation with
    ⟨e, -, heq⟩ | ⟨-, ⟨e, -, heq⟩ | ⟨hok, heq⟩⟩ <;> rw [heq]
  · exact h
  · exact hgrown
  · refine ⟨hgrown.distinct, fun other ho c hc => ?_⟩
    rcases List.mem_append.1 ho with ho | ho
    · rw [← (growsTo_addFragments operation.fragments draft).operations] at ho
      exact hgrown.held other ho c hc
    · obtain rfl := List.mem_singleton.1 ho
      exact matches_of_addFragments _ draft hok c hc

end DocumentDraft

/-- What a document is asked for. -/
inductive DocumentCall where
  | define (serial : Nat) (fragment : FragmentDraft)
  | add (operation : Operation)

namespace DocumentDraft

/-- The document after a call, whether it failed or not. -/
def next (draft : DocumentDraft) : DocumentCall → DocumentDraft
  | .define serial fragment => (draft.defineFragment serial fragment).2
  | .add operation => (draft.addOperation operation).2

theorem Sound.next {draft : DocumentDraft} (h : draft.Sound) (call : DocumentCall) :
    (draft.next call).Sound := by
  cases call with
  | define serial fragment => exact h.grown (growsTo_defineFragment draft serial fragment)
  | add operation => exact h.addOperation operation

end DocumentDraft

namespace Bundle

/-- Documents over the bundle, which start empty, after calls that each go to one of them. -/
def documents (bundle : Bundle) (calls : List (Nat × DocumentCall)) : Nat → DocumentDraft :=
  calls.foldl (fun documents call =>
    Function.update documents call.1 ((documents call.1).next call.2)) fun _ => .empty bundle

theorem documents_sound (bundle : Bundle) (calls : List (Nat × DocumentCall)) (i : Nat) :
    (bundle.documents calls i).Sound := by
  unfold documents
  have hstart : ∀ i : Nat, ((fun _ => .empty bundle : Nat → DocumentDraft) i).Sound :=
    fun _ => ⟨List.nodup_nil, fun _ h => absurd h List.not_mem_nil⟩
  generalize (fun _ => DocumentDraft.empty bundle : Nat → DocumentDraft) = documents at hstart ⊢
  induction calls generalizing documents with
  | nil => exact hstart i
  | cons call rest ih =>
    apply ih
    intro j
    change (Function.update documents call.1 ((documents call.1).next call.2) j).Sound
    by_cases hj : j = call.1
    · subst hj
      rw [Function.update_self]
      exact (hstart call.1).next call.2
    · rw [Function.update_of_ne hj]
      exact hstart j

end Bundle

namespace DocumentDraft.Sound

variable {draft : DocumentDraft} {operation : Operation} {fragment s : Fragment}

/-- All that a coherent operation of the document spreads is held. -/
theorem holds_of_coherent (h : draft.Sound) (ho : operation ∈ draft.operations)
    (hc : operation.Coherent) (hs : s ∈ operation.reached) : draft.Holds s := by
  obtain ⟨c, hmem, -, hm⟩ := hc.exists_fragment hs
  obtain ⟨found, hf, hm'⟩ := h.held operation ho c hmem
  exact h.distinct.holds_iff.2 ⟨found, hf, hm'.trans hm⟩

theorem coherent_of_holds (h : draft.Sound) (hk : ∀ f ∈ draft.fragments, f.WellKeyed)
    (hs : ∀ s ∈ operation.reached, draft.Holds s) : operation.Coherent := by
  intro s hmem t hmem' hname
  obtain ⟨found, hf, hm⟩ := h.distinct.holds_iff.1 (hs s hmem)
  obtain ⟨found', hf', hm'⟩ := h.distinct.holds_iff.1 (hs t hmem')
  obtain rfl := h.distinct.eq_of_name_eq hf hf' (hm.name_eq.trans (hname.trans hm'.name_eq.symm))
  exact (hm.symm (hk found hf)).trans hm'

/-- What is spread in a fragment that a coherent operation uses is spread in the operation. -/
theorem holds_of_uses (h : draft.Sound) (hk : fragment.WellKeyed) (hf : fragment ∈ draft.fragments)
    (ho : operation ∈ draft.operations) (hc : operation.Coherent)
    (hn : fragment.name ∈ operation.fragments.map (·.name)) (hs : s ∈ fragment.reached) :
    draft.Holds s := by
  obtain ⟨c, hmem, hname⟩ := List.mem_map.1 hn
  obtain ⟨found, hfound, hm⟩ := h.held operation ho c hmem
  obtain rfl := h.distinct.eq_of_name_eq hfound hf (hm.name_eq.trans hname)
  obtain ⟨t, ht, hst⟩ := hm.reached hs
  have hreached : t ∈ operation.reached :=
    Selection.reachedOfAll_subset (operation.fragments_subset_reached hmem) ht
  obtain ⟨other, hother, hot⟩ := h.distinct.holds_iff.1 (h.holds_of_coherent ho hc hreached)
  have hks : s.WellKeyed := Selection.EverywhereAll.reachedOfAll hk hs
  exact h.distinct.holds_iff.2 ⟨other, hother, hot.trans (hst.symm hks)⟩

theorem faithful_iff (h : draft.Sound) (hk : ∀ f ∈ draft.fragments, f.WellKeyed) :
    draft.Faithful ↔ (∀ operation ∈ draft.operations, operation.Coherent) ∧
      ∀ f ∈ draft.fragments, draft.Uses f ∨ ∀ s ∈ f.reached, draft.Holds s := by
  constructor
  · intro hfaithful
    exact ⟨fun operation ho => h.coherent_of_holds hk (hfaithful.operations operation ho),
      fun f hf => .inr (hfaithful.fragments f hf)⟩
  · rintro ⟨hcoherent, hrest⟩
    constructor
    · exact fun operation ho s => h.holds_of_coherent ho (hcoherent operation ho)
    · intro f hf s hs
      rcases hrest f hf with ⟨operation, ho, hn⟩ | hheld
      · exact h.holds_of_uses (hk f hf) hf ho (hcoherent operation ho) hn hs
      · exact hheld s hs

/-- A coherent operation with a free name is added, or a clash of one of its spreads is reported. -/
theorem clashes_of_addOperation (h : draft.Sound) (hc : operation.Coherent)
    (hn : draft.nameError? operation.name = none) :
    (∀ s ∈ operation.reached, ¬ draft.Clashes s) ∧ (draft.addOperation operation).1 = .ok () ∨
      ∃ s ∈ operation.reached, draft.Clashes s ∧
        (draft.addOperation operation).1 = .error (.duplicateFragmentName s.name) := by
  have hfst : (draft.addOperation operation).1 = (draft.addFragments operation.fragments).1 := by
    rcases draft.addOperation_cases operation with
      ⟨e, he, -⟩ | ⟨-, ⟨e, he, heq⟩ | ⟨hok, heq⟩⟩
    · rw [hn] at he
      cases he
    · rw [heq, he]
    · rw [heq, hok]
  rw [hfst]
  rcases clashes_of_addFragments operation.fragments draft h.distinct operation.nodup_fragments with
    ⟨hall, hok⟩ | ⟨f, hf, hclash, herror⟩
  · refine .inl ⟨?_, hok⟩
    -- a clash of a spread is one of the gathered fragment, which it matches
    rintro s hs ⟨found, hfound, hname, hdiffers⟩
    obtain ⟨c, hmem, hcname, hm⟩ := hc.exists_fragment hs
    apply hall c hmem
    refine ⟨found, hfound, hname.trans hcname.symm, ?_⟩
    rcases hm with rfl | hm
    · exact hdiffers
    · by_contra hsame
      have hsame' : found.same c = true := by simpa using hsame
      have htrans : found.same s = true := Selection.same_trans hsame' hm
      rw [hdiffers] at htrans
      cases htrans
  · exact .inr ⟨f, operation.fragments_subset_reached hf, hclash, herror⟩

end DocumentDraft.Sound

namespace DocumentDraft

/-- A name that is held is never defined again. -/
theorem defineFragment_of_held {draft : DocumentDraft} (hd : draft.Distinct) (serial : Nat)
    {fragment : FragmentDraft} {found : Fragment} (hf : found ∈ draft.fragments)
    (hn : found.name = fragment.name) :
    (draft.defineFragment serial fragment).1.result =
      .error (.duplicateFragmentName fragment.name) := by
  have hheld : draft.fragment? fragment.name = some found := hn ▸ hd.fragment?_eq hf
  simp [defineFragment, buildFragment, fragmentScope, hheld]

end DocumentDraft

namespace Bundle

/-- After any calls a document is faithful if and only if its operations are coherent and it holds
what its unused fragments spread. It holds all that a coherent operation spreads, whatever its other
operations are. A coherent operation that clashes with the document is rejected, and so is the
definition of a name that is held. -/
theorem documents_faithful_iff (bundle : Bundle) (calls : List (Nat × DocumentCall)) (i : Nat)
    (hk : ∀ f ∈ (bundle.documents calls i).fragments, f.WellKeyed) :
    ((bundle.documents calls i).Faithful ↔
      (∀ operation ∈ (bundle.documents calls i).operations, operation.Coherent) ∧
      ∀ f ∈ (bundle.documents calls i).fragments, (bundle.documents calls i).Uses f ∨
        ∀ s ∈ f.reached, (bundle.documents calls i).Holds s) ∧
    (∀ operation ∈ (bundle.documents calls i).operations, operation.Coherent →
      (∀ s ∈ operation.reached, (bundle.documents calls i).Holds s) ∧
      ∀ f ∈ (bundle.documents calls i).fragments, f.name ∈ operation.fragments.map (·.name) →
        ∀ s ∈ f.reached, (bundle.documents calls i).Holds s) ∧
    (∀ operation : Operation, operation.Coherent →
      (bundle.documents calls i).nameError? operation.name = none →
      (∀ s ∈ operation.reached, ¬ (bundle.documents calls i).Clashes s) ∧
        ((bundle.documents calls i).addOperation operation).1 = .ok () ∨
      ∃ s ∈ operation.reached, (bundle.documents calls i).Clashes s ∧
        ((bundle.documents calls i).addOperation operation).1 =
          .error (.duplicateFragmentName s.name)) ∧
    ∀ (serial : Nat) (fragment : FragmentDraft),
      (∃ found ∈ (bundle.documents calls i).fragments, found.name = fragment.name) →
      ((bundle.documents calls i).defineFragment serial fragment).1.result =
        .error (.duplicateFragmentName fragment.name) := by
  have h := bundle.documents_sound calls i
  refine ⟨h.faithful_iff hk, fun operation ho hc => ⟨fun s => h.holds_of_coherent ho hc, ?_⟩,
    fun operation hc hn => h.clashes_of_addOperation hc hn, ?_⟩
  · exact fun f hf hn s hs => h.holds_of_uses (hk f hf) hf ho hc hn hs
  · rintro serial fragment ⟨found, hf, hn⟩
    exact DocumentDraft.defineFragment_of_held h.distinct serial hf hn

end Bundle

/-- A fragment on the shop that starts with its `id`. -/
def shopFragment (serial : Nat) (name : String) (selections : List Selection) : Fragment :=
  ⟨serial, name, "Shop", ⟨"Shop", .leaf (.plain "id") :: selections⟩⟩

/-- A query for the shop that makes more selections after its `id`. -/
def shopListing (selections : List Selection) : Operation :=
  ⟨.query, some "Listing", [], [],
    ⟨"Query", [.composite (.plain "shop") "Shop" (.leaf (.plain "id") :: selections)]⟩⟩

def shopLabel : Fragment := shopFragment 0 "Label" [.leaf (.plain "name")]

def shopCard : Fragment := shopFragment 1 "Card" [.ofFragment shopLabel]

/-- One document defines a label and a card with it, another adds a listing with the card. -/
def cardCalls : List (Nat × DocumentCall) :=
  [(0, .define 0 ⟨"Label", "Shop", [.field "name" .none]⟩),
   (0, .define 1 ⟨"Card", "Shop", [.spread shopLabel]⟩),
   (1, .add (shopListing [.ofFragment shopCard]))]

theorem card_document : sampleBundle.documents cardCalls 1 =
    ⟨sampleBundle, [shopListing [.ofFragment shopCard]], [shopCard, shopLabel]⟩ := rfl

theorem card_faithful :
    (∀ f ∈ (sampleBundle.documents cardCalls 1).fragments, f.WellKeyed) ∧
      (sampleBundle.documents cardCalls 1).Faithful := by
  have hk : ∀ f ∈ (sampleBundle.documents cardCalls 1).fragments, f.WellKeyed := by
    simp [card_document, Fragment.WellKeyed, shopCard, shopLabel, shopFragment, Selection.ofFragment,
      Selection.EverywhereAll, Selection.Everywhere, Selection.WellKeyed, Selection.field?,
      Field.WellKeyed, Field.plain, Field.ofOptions, FieldOptions.none, Keyed.names,
      Value.WellKeyedFields]
  refine ⟨hk, (sampleBundle.documents_faithful_iff cardCalls 1 hk).1.2 ⟨?_, fun f hf => .inl ?_⟩⟩
  · have hsame : ∀ operation ∈ (sampleBundle.documents cardCalls 1).operations,
        ∀ s ∈ operation.reached, ∀ t ∈ operation.reached, s.name = t.name → s.same t = true := by
      decide +kernel
    exact fun operation ho s hs t ht hn => .inr (hsame operation ho s hs t ht hn)
  · have hused : ∀ f ∈ (sampleBundle.documents cardCalls 1).fragments,
        f.name ∈ (shopListing [.ofFragment shopCard]).fragments.map (·.name) := by
      decide +kernel
    rw [card_document] at hf ⊢
    exact ⟨_, List.mem_cons_self, hused f hf⟩

def otherLabel : Fragment := shopFragment 1 "Label" []

/-- A listing with the two labels, one of them inside an inline fragment. -/
def clashingListing : Operation :=
  shopListing [.ofFragment shopLabel, .inlineFragment "Shop" "Shop" [.ofFragment otherLabel]]

/-- Two documents define different labels, and the first adds a listing with both. -/
def clashingCalls : List (Nat × DocumentCall) :=
  [(0, .define 0 ⟨"Label", "Shop", [.field "name" .none]⟩),
   (1, .define 1 ⟨"Label", "Shop", [.field "id" .none]⟩),
   (0, .add clashingListing)]

/-- The listing is built and added, and one of its labels is not the one that is held. -/
theorem clashing_label_lost :
    ((⟨.query, some "Listing", [], [], [.object "shop" .none
      [.spread shopLabel, .fragmentOn "Shop" [.spread otherLabel]]]⟩ : OperationDraft).build
        sampleBundle).result = .ok clashingListing ∧
      (sampleBundle.documents clashingCalls 0).document = ⟨[clashingListing], [shopLabel]⟩ ∧
      (sampleBundle.documents clashingCalls 1).document = ⟨[], [otherLabel]⟩ ∧
      ¬ (sampleBundle.documents clashingCalls 0).Faithful := by
  refine ⟨rfl, rfl, rfl, fun h => ?_⟩
  obtain ⟨found, hf, hm⟩ := h.operations _ List.mem_cons_self otherLabel
    (List.mem_cons_of_mem _ List.mem_cons_self)
  obtain rfl : shopLabel = found := (List.cons.inj hf).1
  rcases hm with heq | hsame
  · exact absurd (congrArg Fragment.serial heq) (by decide)
  · exact absurd hsame (by decide)

end GraphQLClient
