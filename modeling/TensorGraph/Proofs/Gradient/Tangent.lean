import TensorGraph.Proofs.Gradient.Sweep
import TensorGraph.Proofs.Kernel.Exact
import TensorGraph.Proofs.Op.Infer

/-!
Values and tangents. Ops run on exact numbers; tangents start at the weights and are taken forward by the tangent maps
of ops. Gradients that wait are paired with the tangents of the tensors that they are for. When the gradients for a
tensor become one, that sum stays the same.
-/
namespace TensorGraph

open TensorGraph.Graph

variable {R : Type} [Field R]

/-! ## Gradients paired with tangents -/

/-- The elements of a tensor. -/
def elements (ν : TensorId → Option (Operand R)) (t : TensorId) : List R := ((ν t).map (·.values)).getD []

/-- Gradients paired with the tangents of the tensors that they stand after. -/
def paired (ν : TensorId → Option (Operand R)) (τ : TensorId → Nat → R) (l : List (TensorId × TensorId)) : R :=
  (l.map fun (t, p) => pairing (elements ν p) (τ t)).sum

section Paired

variable {ν : TensorId → Option (Operand R)} {τ : TensorId → Nat → R} {l m : List (TensorId × TensorId)}

theorem paired_append : paired ν τ (l ++ m) = paired ν τ l + paired ν τ m := by
  rw [paired, List.map_append, List.sum_append]
  rfl

theorem paired_perm (h : l.Perm m) : paired ν τ l = paired ν τ m := (h.map _).sum_eq

theorem paired_congr {ν' : TensorId → Option (Operand R)} (h : ∀ p ∈ l.map Prod.snd, ν' p = ν p) :
    paired ν' τ l = paired ν τ l := by
  refine congrArg List.sum (List.map_congr_left fun e he => ?_)
  have helements : elements ν' e.2 = elements ν e.2 := by
    rw [elements, elements, h e.2 (List.mem_map.2 ⟨e, he, rfl⟩)]
  exact congrArg (pairing · (τ e.1)) helements

end Paired

/-! ## Tangents -/

/-- What each kind of op makes of tangents of its operands, given their values. No tangents give none. -/
structure TangentMap (R : Type) [Zero R] where
  map : OpKind → List (Operand R) → List (Nat → R) → Nat → R
  map_zero : ∀ kind xs τs, (∀ τ ∈ τs, τ = 0) → map kind xs τs = 0

/-- Tangents that start at the weights of floating-point numbers and are taken along by forward ops. What a forward op
reads from an op of another phase has none. -/
structure Propagates (T : TangentMap R) (G : Graph) (ν : TensorId → Option (Operand R)) (τ : TensorId → Nat → R) :
    Prop where
  source : ∀ {t x}, G.tensor? t = some x → x.producer = none →
    ¬ (x.type = .weight ∧ x.info.dtype.isFloat = true) → τ t = 0
  forward : ∀ {t o op xs}, G.producer? t = some o → G.op? o = some op → op.phase = .forward →
    op.inputs.mapM ν = some xs → τ t = T.map op.kind xs (op.inputs.map τ)
  other : ∀ {t o op q}, G.producer? t = some o → G.op? o = some op → op.phase ≠ .forward →
    q ∈ G.forwardReaders t → τ t = 0

/-- Gradients for the operands of an op are adjoint to its tangent map: they have the shapes of the operands, and
paired with any tangents of operands that need a gradient they give what the gradient for the result, `incoming`,
gives with the tangent of the result. -/
structure Adjoint (r : Reading (Operand R)) (T : TangentMap R) (needs : TensorId → Bool) (g : Graph) (op : Op)
    (incoming : TensorId) (gradients : List (Option TensorId)) : Prop where
  shape : ∀ {i p}, (i, p) ∈ Synthesis.given op.inputs gradients →
    ∃ x y, g.info? i = some x ∧ g.info? p = some y ∧ y.shape = x.shape
  pairing_eq : ∀ {ν xs}, r.Fits g ν → op.inputs.mapM ν = some xs →
    ∀ δ : TensorId → Nat → R, (∀ i ∈ op.inputs, needs i = false → δ i = 0) →
      pairing (elements ν incoming) (T.map op.kind xs (op.inputs.map δ)) =
        paired ν δ (Synthesis.given op.inputs gradients)

/-- Only the values of operands matter. -/
theorem Propagates.congr {T : TangentMap R} {G : Graph} {ν ν' : TensorId → Option (Operand R)}
    {τ : TensorId → Nat → R} (h : Propagates T G ν τ)
    (hν : ∀ {o op}, G.op? o = some op → ∀ i ∈ op.inputs, ν' i = ν i) : Propagates T G ν' τ := by
  refine ⟨h.source, fun hp ho hphase hxs => h.forward hp ho hphase ?_, h.other⟩
  rw [← hxs, mapM_congr_of_mem (hν ho)]

/-- What a relevant op reads has no tangent if it needs no gradient. -/
theorem Propagates.eq_zero {T : TangentMap R} {G : Graph} {ν : TensorId → Option (Operand R)}
    {τ : TensorId → Nat → R} (h : Propagates T G ν τ) (hl : G.Linked) (ha : G.Acyclic)
    (hν : ∀ {o op}, G.op? o = some op → ∃ xs, op.inputs.mapM ν = some xs) {losses : List Loss} {o : OpId} {op : Op}
    {t : TensorId} (ho : o ∈ Synthesis.relevantOps G losses) (hop : G.op? o = some op) (ht : t ∈ op.inputs)
    (hneeds : Synthesis.needsGrad G (Synthesis.relevantOps G losses) t = false) : τ t = 0 := by
  have hspreads : Synthesis.Spreads G fun t => τ t = 0 := by
    refine ⟨fun hx hp hw => h.source hx hp fun hc => hw hc.1, fun {t o op} hp ho hphase hin => ?_, h.other⟩
    obtain ⟨xs, hxs⟩ := hν ho
    rw [h.forward hp ho hphase hxs]
    refine T.map_zero _ _ _ fun δ hδ => ?_
    obtain ⟨i, hi, rfl⟩ := List.mem_map.1 hδ
    exact hin i hi
  exact hspreads.of_not_needsGrad hl ha ho hop ht hneeds

/-! ## Values -/

variable [LinearOrder R]

namespace Graph

/-- Ops run on numbers, and `a` gives the values of the tensors that are not computed. -/
def numeric (G : Graph) (f : Functions R) (a : TensorId → Option (Operand R)) : Reading (Operand R) where
  run kind xs info := (@Kernel.exact R f.scalar kind xs info).toOption
  source t := (G.tensor? t).bind fun x => if x.type = .actGrad then none else a t

variable {G g : Graph} {f : Functions R} {a ν : TensorId → Option (Operand R)} {t : TensorId} {o : OpId} {op : Op}

theorem numeric_source {v : Operand R} (h : (G.numeric f a).source t = some v) :
    ∃ x, G.tensor? t = some x ∧ x.type ≠ .actGrad := by
  obtain ⟨x, hx, h⟩ := Option.bind_eq_some_iff.1 h
  split at h
  · cases h
  · rename_i hne
    exact ⟨x, hx, hne⟩

/-- The result of an op has the info of its tensor, and as many values as that says. -/
theorem numeric_op (h : (G.numeric f a).Fits g ν) (hp : g.producer? t = some o) (ho : g.op? o = some op) :
    ∃ xs info y, op.inputs.mapM ν = some xs ∧ g.info? t = some info ∧ ν t = some y ∧
      @Kernel.exact R f.scalar op.kind xs info = .ok y ∧ y.info = info ∧ info.counted = .ok y.values.length := by
  obtain ⟨y, hy, happly⟩ := h.op hp ho
  obtain ⟨xs, hxs, happly⟩ := Option.bind_eq_some_iff.1 happly
  obtain ⟨info, hinfo, hrun⟩ := Option.bind_eq_some_iff.1 happly
  have hexact : @Kernel.exact R f.scalar op.kind xs info = .ok y := by
    change (@Kernel.exact R f.scalar op.kind xs info).toOption = some y at hrun
    cases hcall : @Kernel.exact R f.scalar op.kind xs info with
    | error e => rw [hcall] at hrun; cases hrun
    | ok z => rw [hcall] at hrun; cases hrun; rfl
  obtain ⟨hyi, hcount, -⟩ := @Kernel.exact_ok R f.scalar _ _ _ _ hexact
  exact ⟨xs, info, y, hxs, hinfo, hy, hexact, hyi, hcount⟩

end Graph

/-! ## Sums of gradients -/

namespace Synthesis

variable {G : Graph} {s s' : Synthesis} {t : TensorId} {f : Functions R} {a ν : TensorId → Option (Operand R)}

omit [LinearOrder R] in
/-- Gradients for one tensor are paired with its tangent one by one. -/
theorem paired_eq_sum {many : List Partial} {xs : List (Operand R)} (τ : TensorId → Nat → R)
    (h : List.Forall₂ (fun p x => ν p.tensor = some x) many xs) :
    paired ν τ (many.map fun p => (t, p.tensor)) = (xs.map fun x => pairing x.values (τ t)).sum := by
  rw [paired, List.map_map]
  induction h with
  | nil => rfl
  | @cons p z many xs hpz _ ih =>
    rw [List.map_cons, List.map_cons, List.sum_cons, List.sum_cons, ih]
    simp [elements, hpz]

/-- A sum of gradients that wait for one tensor is paired as they are together. -/
theorem paired_sum (h : Grown SameShape G s) {many : List Partial} {output : TensorId} {info : TensorInfo}
    (hmany : ∀ p ∈ many, (t, p.tensor) ∈ s.waiting) (hne : many ≠ [])
    (ha : Added s.graph .sum (many.map (·.tensor)) output info s'.graph) (hν : (G.numeric f a).Fits s'.graph ν)
    (τ : TensorId → Nat → R) :
    pairing (elements ν output) (τ t) = paired ν τ (many.map fun p => (t, p.tensor)) := by
  obtain ⟨op, hop, hkind, hin, hout⟩ := ha.found
  obtain ⟨x, hx, hxp, hxi, -⟩ := ha.result
  obtain ⟨xs, info', y, hxs, hinfo', hy, hexact, -, -⟩ := numeric_op hν (producer?_eq_some.2 ⟨x, hx, hxp⟩) hop
  obtain rfl : info' = info := by
    rw [info?, hx, Option.map_some, Option.some.injEq] at hinfo'
    exact hinfo'.symm.trans hxi
  obtain ⟨first, hfirst⟩ := List.exists_mem_of_ne_nil many hne
  obtain ⟨-, -, i, -, hi, -⟩ := h.waits (hmany first hfirst)
  -- all of them have the shape of the tensor that they are for
  have hwaits : ∀ p ∈ many, ∃ o j, s.graph.producer? p.tensor = some o ∧ s.graph.info? p.tensor = some j ∧
      j.shape = i.shape := by
    intro p hp
    obtain ⟨-, ⟨o, ho⟩, i', j, hi', hj, hshape⟩ := h.waits (hmany p hp)
    cases hi.symm.trans hi'
    exact ⟨o, j, ho, hj, hshape⟩
  have hshape : info'.shape = i.shape := by
    obtain ⟨infos, hinfos, hinfer⟩ := ha.infers
    rw [Outcome.mapM_eq_ok, List.forall₂_map_left_iff] at hinfos
    refine OpKind.infer_sum hinfer fun k hk => ?_
    obtain ⟨p, hp, hpk⟩ := exists_of_forall₂ hinfos.flip k hk
    obtain ⟨-, j, -, hj, hjs⟩ := hwaits p hp
    rw [Graph.info, Outcome.orFail_eq_ok, hj] at hpk
    cases hpk
    exact hjs
  rw [hin, mapM_eq_some_iff, List.forall₂_map_left_iff] at hxs
  rw [hkind] at hexact
  have hoperands : ∀ z ∈ xs, z.info.shape = info'.shape ∧ info'.counted = .ok z.values.length := by
    intro z hz
    obtain ⟨p, hp, hpz⟩ := exists_of_forall₂ hxs.flip z hz
    obtain ⟨o, j, ho, hj, hjs⟩ := hwaits p hp
    obtain ⟨hproducer, hinfo⟩ := ha.keeps ho
    obtain ⟨pop, hpop, -⟩ := ha.linked.op_of_producer hproducer
    obtain ⟨-, j', z', -, hj', hz', -, hzi, hcount⟩ := numeric_op hν hproducer hpop
    cases hpz.symm.trans hz'
    cases hj'.symm.trans (hinfo.trans hj)
    rw [hzi, hjs, hshape]
    refine ⟨rfl, ?_⟩
    rw [← hcount, TensorInfo.counted, TensorInfo.counted, TensorInfo.dims, TensorInfo.dims, hjs, hshape]
  have helements : elements ν output = y.values := by rw [elements, hy]; rfl
  rw [helements, Kernel.exact_sum f hexact hoperands, paired_eq_sum τ hxs]

/-- When the gradients for a tensor become one, it is paired with the tangent of the tensor as they were. -/
theorem Settled.paired_eq {result : Option TensorId} (hs : Settled t s s' result) (hG : G.Linked) (h : Grown SameShape G s)
    (hp : s'.partials = s.partials.erase t) (hν : (G.numeric f a).Fits s'.graph ν) (τ : TensorId → Nat → R) :
    paired (ν ∘ s.laterName t) τ s.waiting =
      (result.elim 0 fun name => pairing (elements ν name) (τ t)) + paired ν τ s'.waiting := by
  obtain ⟨hgrown, hcarries, hw, hfixed, -⟩ := hs.grown hG h hp
  have hrest : paired (ν ∘ s.laterName t) τ s'.waiting = paired ν τ s'.waiting :=
    paired_congr fun p hp => congrArg ν (hfixed p hp)
  rw [paired_perm hw, paired_append, hrest]
  congr 1
  cases hs with
  | none hl hg =>
    rw [hl]
    rfl
  | @single one x hl hr =>
    rw [hl, laterName_single hl]
    simp [paired, elements]
  | @several many info hl hlen ha =>
    have hmem : ∀ p ∈ many, (t, p.tensor) ∈ s.waiting := fun p hp =>
      hw.mem_iff.2 (List.mem_append_left _ (List.mem_map.2 ⟨p, hl.mem_iff.1 hp, rfl⟩))
    have hne : many ≠ [] := by
      rintro rfl
      simp at hlen
    rw [laterName_several hl hlen, Function.comp_id, Option.elim_some, paired_sum h hmem hne ha hν,
      paired_perm (hl.map _)]

end Synthesis

end TensorGraph
