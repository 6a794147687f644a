import GraphQLClient.Proofs.Paging.AnchoredPages
import GraphQLClient.Proofs.Paging.Refetchable

set_option autoImplicit false

/-!
# What follow-up queries are rooted at

An object is fetched again, and a next page fetched from an anchor, by a query. Without an anchor a
next page is asked for by an operation of the kind that the page came from, on the root for that kind.
-/

namespace GraphQLClient

namespace Operation

variable {bundle : Bundle} {operation : Operation}

/-- The operation is of this kind and selects on the root type for it. -/
def RootedAt (bundle : Bundle) (kind : OperationKind) (operation : Operation) : Prop :=
  operation.kind = kind ∧
    ∃ root, OperationDraft.root? bundle kind = .ok root ∧ operation.set.typeName = root.name

/-- The operation is a query on the query root. -/
def IsQuery (bundle : Bundle) (operation : Operation) : Prop :=
  operation.kind = .query ∧ operation.set.typeName = bundle.queryRoot.name

theorem isQuery_iff : operation.IsQuery bundle ↔ operation.RootedAt bundle .query := by
  constructor
  · exact fun h => ⟨h.1, _, rfl, h.2⟩
  · rintro ⟨hkind, root, hroot, hname⟩
    obtain rfl := Except.ok.inj hroot
    exact ⟨hkind, hname⟩

theorem rootedAt_of_build {draft : OperationDraft}
    (h : (draft.build bundle).result = .ok operation) : operation.RootedAt bundle draft.kind := by
  obtain ⟨scope, set, hscope, hset, rfl⟩ := OperationDraft.build_eq_ok h
  obtain ⟨hroot, -⟩ := OperationDraft.scope_eq_ok hscope
  obtain ⟨hname, -⟩ := OperationDraft.freelyGrown_of_buildSet hset
  exact ⟨rfl, _, hroot, hname⟩

end Operation

theorem FollowUp.rootedAt_of_ofDraft {source : Source} {draft : OperationDraft} {path : List String}
    {next : FollowUp} (h : ofDraft source draft path = .ok next) :
    next.operation.RootedAt source.bundle draft.kind :=
  Operation.rootedAt_of_build (ofDraft_eq_ok h).1

theorem Model.isQuery_refetch {model : Model} {again : FollowUp} (h : model.refetch = .ok again) :
    again.operation.IsQuery model.source.bundle := by
  unfold refetch at h
  split at h
  · split at h
    · cases h
    · split at h
      · exact Operation.isQuery_iff.2 (FollowUp.rootedAt_of_ofDraft h)
      · cases h
  · cases h

namespace PageMark

variable {mark : PageMark} {next : FollowUp}

/-- The page came from a mutation, and there is no anchor to start from. -/
def Resends (mark : PageMark) : Prop :=
  mark.source.operation.kind = .mutation ∧ mark.usableAnchor? = none

theorem not_resends_iff :
    ¬ mark.Resends ↔ mark.source.operation.kind = .query ∨ mark.usableAnchor?.isSome = true := by
  unfold Resends
  cases mark.source.operation.kind <;> cases mark.usableAnchor? <;> simp

/-- The next page is asked for by a mutation where the page came from one and there is no anchor to
start from, and by a query otherwise. -/
theorem rootedAt_nextPage (h : mark.nextPage = .ok next) :
    (mark.Resends → next.operation.RootedAt mark.source.bundle .mutation) ∧
      (¬ mark.Resends → next.operation.IsQuery mark.source.bundle) := by
  obtain ⟨anchor, pruned, hu, -, hnext⟩ | ⟨hu, pruned, -, hnext⟩ := nextPage_cases h
  · have hrooted := FollowUp.rootedAt_of_ofDraft hnext
    refine ⟨?_, fun _ => Operation.isQuery_iff.2 hrooted⟩
    rintro ⟨-, hnone⟩
    rw [hu] at hnone
    cases hnone
  · have hrooted : next.operation.RootedAt mark.source.bundle mark.source.operation.kind :=
      FollowUp.rootedAt_of_ofDraft hnext
    constructor
    · exact fun hresends => hresends.1 ▸ hrooted
    · intro hnot
      have hkind : mark.source.operation.kind = .query := by
        refine (not_resends_iff.1 hnot).resolve_right ?_
        rw [hu]
        exact Bool.false_ne_true
      exact Operation.isQuery_iff.2 (hkind ▸ hrooted)

theorem isQuery_nextPage_iff (h : mark.nextPage = .ok next) :
    next.operation.IsQuery mark.source.bundle ↔ ¬ mark.Resends := by
  obtain ⟨hmutation, hquery⟩ := rootedAt_nextPage h
  refine ⟨fun hnext hresends => ?_, hquery⟩
  have hkind := hnext.1.symm.trans (hmutation hresends).1
  cases hkind

end PageMark

/-- The query for the page after a connection, or after a node in one. -/
def Decoded.nextPage? : Decoded → Option (Except ModelError FollowUp)
  | .connection nodes info mark => some (Connection.nextPage ⟨nodes, info, mark⟩)
  | .object model => some model.nextPage
  | _ => none

theorem Decoded.nextPage?_eq_some {decoded : Decoded} {result : Except ModelError FollowUp}
    (h : decoded.nextPage? = some result) :
    (∃ mark, decoded.mark? = some mark ∧ mark.nextPage = result) ∨
      result = .error .emptyConnection ∨ ∃ typeName, result = .error (.noPagination typeName) := by
  cases decoded with
  | connection nodes info mark =>
    have hnext : Connection.nextPage ⟨nodes, info, mark⟩ = result := Option.some.inj h
    cases mark with
    | none => exact .inr (.inl hnext.symm)
    | some mark => exact .inl ⟨mark, rfl, hnext⟩
  | object model =>
    have hnext : model.nextPage = result := Option.some.inj h
    unfold Model.nextPage at hnext
    cases hm : model.head.mark with
    | none =>
      rw [hm] at hnext
      exact .inr (.inr ⟨_, hnext.symm⟩)
    | some mark =>
      rw [hm] at hnext
      exact .inl ⟨mark, hm, hnext⟩
  | _ => cases h

theorem Decoded.nextPage?_eq_ok {decoded : Decoded} {next : FollowUp}
    (h : decoded.nextPage? = some (.ok next)) :
    ∃ mark, decoded.mark? = some mark ∧ mark.nextPage = .ok next := by
  obtain hmark | hnone | ⟨_, hnone⟩ := Decoded.nextPage?_eq_some h
  · exact hmark
  · cases hnone
  · cases hnone

namespace Decoder

variable {decoder : Decoder} {data : Json} {address : List Move} {mark : PageMark}

/-- Every object and connection that is decoded knows what it was decoded for. -/
theorem source_of_at? {model : Model}
    (h : (Decoded.object (decoder.decode data)).at? address = some (.object model)) :
    model.source = decoder.source := by
  rw [at?_decode] at h
  obtain ⟨spot, -, hread⟩ := Option.map_eq_some_iff.1 h
  obtain ⟨static, parts, entries, -, -, rfl⟩ := of_read_eq_object hread
  rfl

/-- A decoded mark has an anchor to start from if an object around it has an id, and the bundle can
fetch objects by their ids. -/
theorem usableAnchor?_isSome_iff
    (hm : ((Decoded.object (decoder.decode data)).at? address).bind Decoded.mark? = some mark) :
    mark.source = decoder.source ∧
      (mark.usableAnchor?.isSome = true ↔
        mark.anchor.isSome = true ∧ decoder.bundle.nodeField?.isSome = true) := by
  have heach : ∀ spot, decoder.follow? (decoder.root data) address = some spot →
      spot.Each (fun _ _ => True) decoder := fun spot hspot =>
    follow?_each (root_each data trivial) (fun _ _ _ _ _ _ _ _ _ _ _ _ =>
      Shape.each_ofCollected (fun _ _ _ _ _ => trivial) fun _ _ _ _ _ _ => trivial) hspot
  obtain ⟨hsource, hanchor⟩ := anchor_of_mark? heach hm
  refine ⟨hsource, ?_⟩
  unfold PageMark.usableAnchor?
  rw [hsource]
  cases ha : mark.anchor with
  | none => simp
  | some anchor =>
    have hdepth : anchor.depth < mark.path.length := (hanchor anchor ha).1
    simp [hdepth, Decoder.bundle]

end Decoder

end GraphQLClient
