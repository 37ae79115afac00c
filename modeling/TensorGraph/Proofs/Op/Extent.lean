import TensorGraph.Proofs.Op.Infer
import TensorGraph.Train.Loss

/-!
Extents below zero can be written into models, and shape inference does not refuse them. Where the operands of an op
have none, neither has the result, if the op stands in models or computes a loss. Gradients name the shapes of their
results, so of them this does not hold.
-/
namespace TensorGraph

/-- No extent is below zero. -/
def Shape.Sized (s : Shape) : Prop := ∀ d ∈ s, (0 : Int) ≤ d

namespace Shape

variable {a b c s : Shape}

theorem sized_append : Sized (a ++ b) ↔ a.Sized ∧ b.Sized := by
  simp only [Sized, List.mem_append, or_imp, forall_and]

theorem sized_padTo (h : s.Sized) (rank : Nat) : (s.padTo rank).Sized := by
  refine sized_append.2 ⟨fun d hd => ?_, h⟩
  rw [List.eq_of_mem_replicate hd]
  exact Int.one_nonneg

theorem broadcastExtent_mem {x y d : Int} (h : broadcastExtent x y = some d) : d = x ∨ d = y := by
  unfold broadcastExtent at h
  split at h
  · exact .inl (Option.some.inj h).symm
  · split at h
    · exact .inr (Option.some.inj h).symm
    · split at h
      · exact .inl (Option.some.inj h).symm
      · cases h

theorem sized_joinExtents : ∀ {a b c : Shape}, a.Sized → b.Sized → joinExtents a b = some c → c.Sized
  | [], _, c, _, _, h => by
    cases h
    nofun
  | _ :: _, [], c, _, _, h => by
    cases h
    nofun
  | x :: a, y :: b, c, ha, hb, h => by
    obtain ⟨d, hd, h⟩ := Option.bind_eq_some_iff.1 h
    obtain ⟨rest, hrest, h⟩ := Option.bind_eq_some_iff.1 h
    cases h
    have htail := sized_joinExtents (fun e he => ha e (List.mem_cons_of_mem x he))
      (fun e he => hb e (List.mem_cons_of_mem y he)) hrest
    intro e he
    rcases List.mem_cons.1 he with rfl | he
    · rcases broadcastExtent_mem hd with rfl | rfl
      · exact ha e List.mem_cons_self
      · exact hb e List.mem_cons_self
    · exact htail e he

theorem sized_broadcast (ha : a.Sized) (hb : b.Sized) (h : a.broadcast b = .ok c) : c.Sized := by
  rw [broadcast, Outcome.orFail_eq_ok] at h
  exact sized_joinExtents (sized_padTo ha _) (sized_padTo hb _) h

theorem sized_reduced (h : s.Sized) (axes : List Nat) (keepDims : Bool) : (s.reduced axes keepDims).Sized := by
  intro d hd
  obtain ⟨⟨e, i⟩, he, hd⟩ := List.mem_filterMap.1 hd
  simp only at hd
  split at hd
  · split at hd
    · rw [← Option.some.inj hd]
      exact Int.one_nonneg
    · cases hd
  · rw [← Option.some.inj hd]
    exact h e (List.fst_mem_of_mem_zipIdx he)

theorem sized_set (h : s.Sized) (i : Nat) {d : Int} (hd : 0 ≤ d) : Sized (s.set i d) := by
  intro e he
  rcases List.mem_or_eq_of_mem_set he with he | rfl
  · exact h e he
  · exact hd

theorem sized_zipWith : ∀ {a b : Shape}, a.Sized → b.Sized → Sized (List.zipWith (· + ·) a b)
  | [], _, _, _ => nofun
  | _ :: _, [], _, _ => nofun
  | x :: a, y :: b, ha, hb => by
    have htail := sized_zipWith (fun e he => ha e (List.mem_cons_of_mem x he)) fun e he => hb e (List.mem_cons_of_mem y he)
    intro d hd
    rcases List.mem_cons.1 hd with rfl | hd
    · exact Int.add_nonneg (ha x List.mem_cons_self) (hb y List.mem_cons_self)
    · exact htail d hd

end Shape

namespace OpKind

open Shape

variable {s s' : Shape} {infos : List TensorInfo} {info : TensorInfo} {kind : OpKind}

theorem sized_slicedShape : ∀ {l : List Shape.Range} {s : Shape}, s.Sized → (slicedShape s l).Sized
  | [], _, h => h
  | r :: l, _, h => sized_slicedShape (l := l) (sized_set h r.axis (Int.natCast_nonneg (r.stop - r.start)))

theorem sized_transposedShape {perm : List Int} (h : s.Sized) (ht : transposedShape s perm = .ok s') : s'.Sized := by
  unfold transposedShape at ht
  split at ht
  · cases ht
  · obtain ⟨axes, -, ht⟩ := Outcome.bind_eq_ok.1 ht
    rw [Outcome.mapM_eq_ok] at ht
    intro d hd
    obtain ⟨i, hi, rfl⟩ := List.getElem_of_mem hd
    have hentry := List.Forall₂.get ht (ht.length_eq ▸ hi) hi
    simp only [List.get_eq_getElem, Outcome.promised_eq_ok] at hentry
    exact h _ (List.mem_of_getElem? hentry)

theorem sized_paddedShape {pads : List Int} (h : s.Sized) (hp : paddedShape s pads = .ok s') : s'.Sized := by
  obtain ⟨-, hpads, rfl⟩ := paddedShape_ok hp
  exact sized_zipWith h (sized_zipWith (fun d hd => hpads d (List.mem_of_mem_take hd))
    fun d hd => hpads d (List.mem_of_mem_drop hd))

theorem concatExtent_nonneg {first : TensorInfo} {axis : Nat} : ∀ {l : List TensorInfo} {total extent : Int},
    (∀ i ∈ l, i.shape.Sized) → 0 ≤ total → concatExtent first axis l total = .ok extent → 0 ≤ extent
  | [], total, extent, _, htotal, h => by
    cases h
    exact htotal
  | other :: rest, total, extent, hl, htotal, h => by
    unfold concatExtent at h
    split at h
    · cases h
    · obtain ⟨d, hd, h⟩ := Outcome.bind_eq_ok.1 h
      obtain ⟨total', ht, h⟩ := Outcome.bind_eq_ok.1 h
      rw [Outcome.promised_eq_ok] at hd
      have hd := hl other List.mem_cons_self d (List.mem_of_getElem? hd)
      obtain ⟨-, rfl⟩ := Word.int_eq_ok_iff.1 ht
      exact concatExtent_nonneg (fun i hi => hl i (List.mem_cons_of_mem _ hi)) (Int.add_nonneg htotal hd) h

theorem sized_concatInfo {axis : Int} (hin : ∀ i ∈ infos, i.shape.Sized) (h : concatInfo axis infos = .ok info) :
    info.shape.Sized := by
  match infos, hin, h with
  | first :: rest, hin, h =>
    obtain ⟨a, -, h⟩ := Outcome.bind_eq_ok.1 h
    obtain ⟨extent, hextent, h⟩ := Outcome.bind_eq_ok.1 h
    cases h
    have hfirst := hin first List.mem_cons_self
    refine sized_set hfirst a (concatExtent_nonneg (fun i hi => hin i (List.mem_cons_of_mem _ hi)) ?_ hextent)
    cases hd : first.shape[a]? with
    | none => exact Int.le_refl 0
    | some d => exact hfirst d (List.mem_of_getElem? hd)

theorem sized_broadcastAll : ∀ {l : List TensorInfo} {s s' : Shape}, s.Sized → (∀ i ∈ l, i.shape.Sized) →
    broadcastAll s l = .ok s' → s'.Sized
  | [], s, s', hs, _, h => by
    cases h
    exact hs
  | i :: l, s, s', hs, hl, h => by
    rw [broadcastAll, List.foldlM_cons] at h
    obtain ⟨s₁, hs₁, h⟩ := Outcome.bind_eq_ok.1 h
    exact sized_broadcastAll (sized_broadcast hs (hl i List.mem_cons_self) hs₁)
      (fun j hj => hl j (List.mem_cons_of_mem _ hj)) h

/-- Whether ops of the kind stand in models or compute losses. -/
def isPrimal : OpKind → Bool
  | identity | unary _ | softmax _ | binary _ | matMul | sum | reduceSum _ _ | reshape _ | transpose _ | slice _ _ _
  | pad _ _ | concat _ | gather _ | scatter _ | nll _ _ | l1 _ _ => true
  | _ => false

/-- Only kinds that name the shapes of their results make extents below zero from others. -/
theorem infer_sized (hk : kind.isPrimal = true) (hin : ∀ i ∈ infos, i.shape.Sized) (h : kind.infer infos = .ok info) :
    info.shape.Sized := by
  have hone : ∀ {name : String} {x : TensorInfo}, operand1 name infos = .ok x → x.shape.Sized :=
    fun hx => hin _ (by rw [operand1_ok hx]; exact List.mem_singleton_self _)
  have htwo : ∀ {name : String} {x y : TensorInfo}, operand2 name infos = .ok (x, y) → x.shape.Sized ∧ y.shape.Sized :=
    fun hxy => ⟨hin _ (by rw [operand2_ok hxy]; simp), hin _ (by rw [operand2_ok hxy]; simp)⟩
  cases kind with
  | identity | unary f => exact hone h
  | softmax axis => exact hin info (by rw [infer_softmax h]; simp)
  | binary f =>
    obtain ⟨a, b, s, rfl, hs, rfl⟩ := infer_binary h
    exact sized_broadcast (hin a (by simp)) (hin b (by simp)) hs
  | matMul =>
    obtain ⟨a, b, m, k, n, rfl, ha, hb, rfl⟩ := infer_matMul h
    have hm := hin a (by simp) m (by rw [ha]; simp)
    have hn := hin b (by simp) n (by rw [hb]; simp)
    intro d hd
    rcases List.mem_pair.1 hd with rfl | rfl
    · exact hm
    · exact hn
  | sum =>
    match infos, hin, h with
    | first :: rest, hin, h =>
      obtain ⟨s, hs, h⟩ := Outcome.bind_eq_ok.1 h
      cases h
      exact sized_broadcastAll (hin first List.mem_cons_self) (fun i hi => hin i (List.mem_cons_of_mem _ hi)) hs
  | reduceSum axes keepDims =>
    obtain ⟨x, hx, h⟩ := Outcome.bind_eq_ok.1 h
    obtain ⟨resolved, -, h⟩ := Outcome.bind_eq_ok.1 h
    cases h
    exact sized_reduced (hone hx) resolved keepDims
  | reshape shape =>
    obtain ⟨hshape, x, -, rfl⟩ := infer_reshape h
    exact hshape
  | transpose perm =>
    obtain ⟨x, s, rfl, hs, rfl⟩ := infer_transpose h
    exact sized_transposedShape (hin x (by simp)) hs
  | slice starts ends axes =>
    obtain ⟨x, ranges, rfl, -, rfl⟩ := infer_slice h
    exact sized_slicedShape (hin x (by simp))
  | pad pads value =>
    obtain ⟨x, s, rfl, hs, rfl⟩ := infer_pad h
    exact sized_paddedShape (hin x (by simp)) hs
  | concat axis => exact sized_concatInfo hin h
  | gather axis =>
    obtain ⟨⟨data, indices⟩, hoperands, h⟩ := Outcome.bind_eq_ok.1 h
    obtain ⟨hdata, hindices⟩ := htwo hoperands
    obtain ⟨_, -, h⟩ := Outcome.bind_eq_ok.1 h
    obtain ⟨a, -, h⟩ := Outcome.bind_eq_ok.1 h
    obtain ⟨s, hs, h⟩ := Outcome.bind_eq_ok.1 h
    cases h
    unfold gatheredShape at hs
    split at hs
    · cases hs
    · cases hs
      refine sized_append.2 ⟨sized_append.2 ⟨fun d hd => hdata d (List.mem_of_mem_take hd), hindices⟩, fun d hd => ?_⟩
      exact hdata d (List.mem_of_mem_drop hd)
  | scatter axis =>
    obtain ⟨indices, updates, rfl, -⟩ := infer_scatter h
    exact hin info (by simp)
  | nll reduction ignored =>
    obtain ⟨⟨probs, labels⟩, -, h⟩ := Outcome.bind_eq_ok.1 h
    obtain ⟨_, -, h⟩ := Outcome.bind_eq_ok.1 h
    obtain ⟨_, -, h⟩ := Outcome.bind_eq_ok.1 h
    cases h
    nofun
  | l1 lambda reduction =>
    obtain ⟨x, -, h⟩ := Outcome.bind_eq_ok.1 h
    cases h
    nofun
  | reduceToShape | unaryGrad | softmaxGrad | operandGrad | reduceSumGrad | gatherGrad | scatterDataGrad
  | scatterUpdatesGrad | nllGrad | l1Grad | sgdVarUpdate => cases hk

end OpKind

theorem Loss.kind_isPrimal (loss : Loss) : loss.kind.isPrimal = true := by
  cases loss <;> rfl

end TensorGraph
