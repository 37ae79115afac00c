import TensorGraph.Op.Infer
import TensorGraph.Proofs.Stateful

/-!
What shape inference gives, kind by kind, where it gives something.
-/
namespace TensorGraph

namespace Shape

theorem joinExtents_self : ∀ s : Shape, joinExtents s s = some s
  | [] => rfl
  | d :: s => by
    rw [joinExtents, joinExtents_self s, broadcastExtent, if_pos rfl]
    rfl

theorem broadcast_self (s : Shape) : broadcast s s = .ok s := by
  have hpad : padTo (max s.length s.length) s = s := by rw [padTo, Nat.max_self, Nat.sub_self]; rfl
  rw [broadcast, broadcast?]
  simp only [hpad, joinExtents_self]
  rfl

end Shape

namespace OpKind

variable {infos : List TensorInfo} {info : TensorInfo} {shape : Shape}

/-- A sum of operands of one shape has that shape. -/
theorem infer_sum (h : OpKind.sum.infer infos = .ok info) (hinfos : ∀ i ∈ infos, i.shape = shape) : info.shape = shape := by
  have hall : ∀ {l : List TensorInfo}, (∀ i ∈ l, i.shape = shape) → broadcastAll shape l = .ok shape := by
    intro l
    induction l with
    | nil => exact fun _ => rfl
    | cons i l ih =>
      intro hl
      rw [broadcastAll, List.foldlM_cons, hl i (by simp), Shape.broadcast_self]
      exact ih fun j hj => hl j (List.mem_cons_of_mem _ hj)
  match infos, h with
  | first :: rest, h =>
    obtain ⟨s, hs, h⟩ := Outcome.bind_eq_ok.1 h
    rw [hinfos first (by simp), hall fun i hi => hinfos i (List.mem_cons_of_mem _ hi)] at hs
    cases hs
    cases h
    rfl

theorem operand1_ok {name : String} (h : operand1 name infos = .ok info) : infos = [info] := by
  match infos, h with
  | [_], h => rw [Except.ok.inj h]

theorem operand2_ok {name : String} {a b : TensorInfo} (h : operand2 name infos = .ok (a, b)) : infos = [a, b] := by
  match infos, h with
  | [_, _], h =>
    cases h
    rfl

theorem operand3_ok {name : String} {a b c : TensorInfo} (h : operand3 name infos = .ok (a, b, c)) :
    infos = [a, b, c] := by
  match infos, h with
  | [_, _, _], h =>
    cases h
    rfl

theorem infer_identity (h : identity.infer infos = .ok info) : infos = [info] := operand1_ok h

theorem infer_unary {f : Unary} (h : (unary f).infer infos = .ok info) : infos = [info] := operand1_ok h

theorem infer_binary {f : Binary} (h : (binary f).infer infos = .ok info) :
    ∃ a b s, infos = [a, b] ∧ a.shape.broadcast b.shape = .ok s ∧ info = a.withShape s := by
  obtain ⟨⟨a, b⟩, hab, h⟩ := Outcome.bind_eq_ok.1 h
  simp only at h
  split at h
  · cases h
  · obtain ⟨s, hs, h⟩ := Outcome.bind_eq_ok.1 h
    cases h
    exact ⟨a, b, s, operand2_ok hab, hs, rfl⟩

/-- A function of two elements, where the second operand stretches to the shape of the first. -/
theorem infer_binary_within {f : Binary} {a b : TensorInfo} (h : (binary f).infer [a, b] = .ok info)
    (hshape : a.shape.broadcast b.shape = .ok a.shape) : info = a := by
  obtain ⟨a', b', s, hab, hs, rfl⟩ := infer_binary h
  cases hab
  cases hshape.symm.trans hs
  rfl

/-- A function of two elements on operands of one shape. -/
theorem infer_binary_same {f : Binary} {a b : TensorInfo} (h : (binary f).infer [a, b] = .ok info)
    (hshape : b.shape = a.shape) : info = a :=
  infer_binary_within h (by rw [hshape, Shape.broadcast_self])

theorem infer_softmax {axis : Int} (h : (softmax axis).infer infos = .ok info) : infos = [info] := by
  obtain ⟨x, hx, h⟩ := Outcome.bind_eq_ok.1 h
  obtain ⟨_, -, h⟩ := Outcome.bind_eq_ok.1 h
  cases h
  exact operand1_ok hx

theorem infer_matMul (h : matMul.infer infos = .ok info) :
    ∃ a b m k n, infos = [a, b] ∧ a.shape = [m, k] ∧ b.shape = [k, n] ∧ info = a.withShape [m, n] := by
  obtain ⟨⟨a, b⟩, hab, h⟩ := Outcome.bind_eq_ok.1 h
  simp only [matMulInfo] at h
  split at h
  · rename_i m k k' n ha hb
    split at h
    · cases h
    · rename_i hk
      rw [ne_eq, not_not] at hk
      cases h
      exact ⟨a, b, m, k, n, operand2_ok hab, ha, hk ▸ hb, rfl⟩
  · cases h

theorem infer_transpose {perm : List Int} (h : (transpose perm).infer infos = .ok info) :
    ∃ x s, infos = [x] ∧ transposedShape x.shape perm = .ok s ∧ info = x.withShape s := by
  obtain ⟨x, hx, h⟩ := Outcome.bind_eq_ok.1 h
  obtain ⟨s, hs, h⟩ := Outcome.bind_eq_ok.1 h
  cases h
  exact ⟨x, s, operand1_ok hx, hs, rfl⟩

theorem infer_slice {starts ends axes : List Int} (h : (slice starts ends axes).infer infos = .ok info) :
    ∃ x ranges, infos = [x] ∧ x.shape.sliceRanges starts ends axes = .ok ranges ∧
      info = x.withShape (slicedShape x.shape ranges) := by
  obtain ⟨x, hx, h⟩ := Outcome.bind_eq_ok.1 h
  obtain ⟨ranges, hranges, h⟩ := Outcome.bind_eq_ok.1 h
  cases h
  exact ⟨x, ranges, operand1_ok hx, hranges, rfl⟩

/-- Pads are not negative. -/
theorem paddedShape_ok {s s' : Shape} {pads : List Int} (h : paddedShape s pads = .ok s') :
    pads.length = 2 * s.length ∧ (∀ p ∈ pads, 0 ≤ p) ∧
      s' = List.zipWith (· + ·) s (List.zipWith (· + ·) (pads.take s.length) (pads.drop s.length)) := by
  unfold paddedShape at h
  split at h
  · cases h
  · rename_i hpads
    simp only [ne_eq, not_or, not_not, Bool.not_eq_true, List.any_eq_false, decide_eq_true_eq, Int.not_lt] at hpads
    refine ⟨hpads.1, hpads.2, ?_⟩
    rw [Outcome.mapM_eq_ok] at h
    have hexact := h.imp fun _ _ he => (Word.int_eq_ok_iff.1 he).2
    exact List.forall₂_eq_eq_eq ▸ hexact.flip

theorem infer_pad {pads : List Int} {value : Single} (h : (pad pads value).infer infos = .ok info) :
    ∃ x s, infos = [x] ∧ paddedShape x.shape pads = .ok s ∧ info = x.withShape s := by
  obtain ⟨x, hx, h⟩ := Outcome.bind_eq_ok.1 h
  obtain ⟨s, hs, h⟩ := Outcome.bind_eq_ok.1 h
  cases h
  exact ⟨x, s, operand1_ok hx, hs, rfl⟩

theorem infer_reshape (h : (reshape shape).infer infos = .ok info) :
    (∀ d ∈ shape, 0 ≤ d) ∧ ∃ x, infos = [x] ∧ info = x.withShape shape := by
  obtain ⟨x, hx, h⟩ := Outcome.bind_eq_ok.1 h
  simp only at h
  split at h
  · cases h
  · rename_i hshape
    obtain ⟨_, -, h⟩ := Outcome.bind_eq_ok.1 h
    obtain ⟨_, -, h⟩ := Outcome.bind_eq_ok.1 h
    split at h
    · cases h
    · cases h
      exact ⟨by simpa using hshape, x, operand1_ok hx, rfl⟩

theorem infer_scatter {axis : Int} (h : (scatter axis).infer infos = .ok info) :
    ∃ indices updates, infos = [info, indices, updates] ∧ indices.shape = updates.shape := by
  obtain ⟨⟨data, indices, updates⟩, hoperands, h⟩ := Outcome.bind_eq_ok.1 h
  obtain ⟨_, -, h⟩ := Outcome.bind_eq_ok.1 h
  obtain ⟨_, -, h⟩ := Outcome.bind_eq_ok.1 h
  split at h
  · cases h
  · rename_i hshapes
    rw [not_or, ne_eq, not_not] at hshapes
    cases h
    exact ⟨indices, updates, operand3_ok hoperands, hshapes.1⟩

theorem infer_unaryGrad {f : UnaryGrad} (h : (unaryGrad f).infer infos = .ok info) : ∃ b, infos = [info, b] := by
  obtain ⟨⟨a, b⟩, hab, h⟩ := Outcome.bind_eq_ok.1 h
  cases h
  exact ⟨b, operand2_ok hab⟩

theorem infer_reduceToShape (h : (reduceToShape shape).infer infos = .ok info) :
    ∃ x, infos = [x] ∧ info = x.withShape shape := by
  obtain ⟨x, hx, h⟩ := Outcome.bind_eq_ok.1 h
  obtain ⟨_, -, h⟩ := Outcome.bind_eq_ok.1 h
  cases h
  exact ⟨x, operand1_ok hx, rfl⟩

/-- The result of an update is like the weight. -/
theorem infer_sgdVarUpdate (h : sgdVarUpdate.infer infos = .ok info) : infos.head? = some info := by
  simp only [infer] at h
  split at h
  · split at h
    · cases h
    · cases h
      rfl
  · cases h

/-- The gradient for an operand has its shape. -/
theorem infer_operandGrad {f : OperandGrad} (h : (operandGrad f shape).infer infos = .ok info) :
    ∃ x rest, infos = x :: rest ∧ info = x.withShape shape := by
  cases f with
  | subRight =>
    obtain ⟨x, hx, h⟩ := Outcome.bind_eq_ok.1 h
    obtain ⟨_, -, h⟩ := Outcome.bind_eq_ok.1 h
    cases h
    exact ⟨x, [], operand1_ok hx, rfl⟩
  | mul | divLeft =>
    obtain ⟨⟨x, y⟩, hxy, h⟩ := Outcome.bind_eq_ok.1 h
    obtain ⟨_, -, h⟩ := Outcome.bind_eq_ok.1 h
    obtain ⟨_, -, h⟩ := Outcome.bind_eq_ok.1 h
    cases h
    exact ⟨x, [y], operand2_ok hxy, rfl⟩
  | divRight =>
    obtain ⟨⟨x, y, z⟩, hxyz, h⟩ := Outcome.bind_eq_ok.1 h
    obtain ⟨_, -, h⟩ := Outcome.bind_eq_ok.1 h
    obtain ⟨_, -, h⟩ := Outcome.bind_eq_ok.1 h
    obtain ⟨_, -, h⟩ := Outcome.bind_eq_ok.1 h
    cases h
    exact ⟨x, [y, z], operand3_ok hxyz, rfl⟩

end OpKind

end TensorGraph
