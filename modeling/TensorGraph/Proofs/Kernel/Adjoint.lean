import TensorGraph.Proofs.Gradient.Undo
import TensorGraph.Proofs.Kernel.Stretch

/-!
Backward kernels for ops that work element by element and for sums. A kernel goes back over another one if, for one of
its operands, it gives what pairs with the operand as the gradient pairs with the result. That is stated for calls whose
results were inferred; both kernels give a result where all sizes can be counted.
-/
namespace TensorGraph

/-- An op without what it adds to its operands whatever they are: padding fills with zeros. -/
def OpKind.linearPart : OpKind → OpKind
  | .pad pads _ => .pad pads .zero
  | kind => kind

namespace Kernel

section Calls

variable {R : Type}

/-- A forward call: its result was inferred, and its operands have all their values and no extent below zero. -/
structure Forward (kind : OpKind) (xs : List (Operand R)) (out : TensorInfo) : Prop where
  infers : kind.infer (xs.map (·.info)) = .ok out
  complete : ∀ x ∈ xs, x.Complete
  sized : ∀ x ∈ xs, x.info.shape.Sized

/-- A gradient for a result. -/
structure Incoming (out : TensorInfo) (g : Operand R) : Prop where
  shape : g.info.shape = out.shape
  complete : g.Complete

theorem Incoming.dims {out : TensorInfo} {g : Operand R} (h : Incoming out g) : g.dims = out.dims := by
  rw [Operand.dims, TensorInfo.dims, TensorInfo.dims, h.shape]

theorem Incoming.length {out : TensorInfo} {g : Operand R} (h : Incoming out g) : g.values.length = volume out.dims := by
  rw [h.complete.length_eq, h.dims]

/-- All sizes of a call can be counted. -/
structure Countable (xs : List (Operand R)) (out : TensorInfo) : Prop where
  operands : ∀ x ∈ xs, Roomy x.dims
  result : Roomy out.dims

end Calls

variable {R : Type} [Field R]

/-- The op `back` on `args` goes back from the gradient `g` for the result of a call to operand `k`: what it gives has the
shape of the operand and pairs with it as the gradient pairs with the result. It gives a result if the sizes of the call
can be counted. -/
structure Backs (f : Numbers R) (kind : OpKind) (xs : List (Operand R)) (out : TensorInfo) (k : Nat) (g : Operand R)
    (back : OpKind) (args : List (Operand R)) : Prop where
  dot_eq : ∀ {x y b info}, xs[k]? = some x → @exact R f.scalar kind.linearPart xs out = .ok y →
    back.infer (args.map (·.info)) = .ok info → @exact R f.scalar back args info = .ok b →
      info.shape = x.info.shape ∧ dot y.values g.values = dot x.values b.values
  total : Countable xs out → ∃ info b, back.infer (args.map (·.info)) = .ok info ∧ @exact R f.scalar back args info = .ok b

theorem exact_length {R : Type} [Scalar R] {kind : OpKind} {xs : List (Operand R)} {out : TensorInfo} {y : Operand R}
    (h : exact kind xs out = .ok y) : y.values.length = volume out.dims :=
  TensorInfo.counted_eq (exact_ok h).2.1

theorem dims_withShape (i : TensorInfo) (s : Shape) : (i.withShape s).dims = s.dims := rfl

theorem counted_of_roomy {i : TensorInfo} {n : Nat} (h : Roomy i.dims) (hn : n = volume i.dims) : i.counted = .ok n :=
  hn ▸ h.product

/-! ## Elements that pass through -/

/-- The plan of identities and other shapes keeps the elements. -/
theorem plan_relabel {R : Type} [Scalar R] {kind : OpKind} (hk : kind.isView = true) {x : Operand R} {out : TensorInfo} :
    plan kind [x] out = do
      if (← out.counted) ≠ x.values.length then .execution (.cannotView x.values.length out) else return .relabel := by
  cases kind <;> first | rfl | cases hk

/-- Identities and other shapes keep the values. -/
theorem exact_relabel {R : Type} [Scalar R] {kind : OpKind} (hk : kind.isView = true) {x y : Operand R}
    {out : TensorInfo} (h : exact kind [x] out = .ok y) : y.values = x.values := by
  obtain ⟨-, -, p, hp, hread⟩ := exact_ok h
  rw [plan_relabel hk] at hp
  obtain ⟨n, -, hp⟩ := Outcome.bind_eq_ok.1 hp
  split at hp
  · cases hp
  · cases hp
    exact (Except.ok.inj hread).symm

theorem exact_relabel_total {R : Type} [Scalar R] {kind : OpKind} (hk : kind.isView = true) {x : Operand R}
    {out : TensorInfo} (h : out.counted = .ok x.values.length) : exact kind [x] out = .ok ⟨out, x.values⟩ := by
  refine exact_eq (p := .relabel) ?_ rfl h
  rw [plan_relabel hk, h]
  exact if_neg (not_not.2 rfl)

variable {f : Numbers R} {kind : OpKind} {xs : List (Operand R)} {x g : Operand R} {out : TensorInfo} {k : Nat}

/-- The gradient for the operand of an identity. -/
theorem backs_identity (hf : Forward .identity [x] out) (hg : Incoming out g) :
    Backs f .identity [x] out 0 g .identity [g] := by
  obtain rfl : x.info = out := by
    have hinfos := OpKind.infer_identity hf.infers
    simpa using hinfos
  refine ⟨fun {x' y b info} hx hy hinfer hb => ?_, fun _ => ⟨g.info, ⟨g.info, g.values⟩, rfl, ?_⟩⟩
  · cases hx
    cases hinfer
    rw [@exact_relabel R f.scalar .identity rfl _ _ _ hy, @exact_relabel R f.scalar .identity rfl _ _ _ hb]
    exact ⟨hg.shape, rfl⟩
  · exact @exact_relabel_total R f.scalar .identity rfl _ _ hg.complete

/-- Another shape has as many elements. -/
theorem infer_reshape_volume {shape : Shape} {x out : TensorInfo} (h : (OpKind.reshape shape).infer [x] = .ok out) :
    volume out.dims = volume x.dims := by
  obtain ⟨x', hx', h⟩ := Outcome.bind_eq_ok.1 h
  cases OpKind.operand1_ok hx'
  simp only at h
  split at h
  · cases h
  · obtain ⟨n, hn, h⟩ := Outcome.bind_eq_ok.1 h
    obtain ⟨m, hm, h⟩ := Outcome.bind_eq_ok.1 h
    split at h
    · cases h
    · rename_i heq
      rw [ne_eq, not_not] at heq
      cases h
      exact (TensorInfo.counted_eq hn).symm.trans (heq.trans (TensorInfo.counted_eq hm))

/-- The gradient for the operand of another shape. -/
theorem backs_reshape {shape : Shape} (hf : Forward (.reshape shape) [x] out) (hg : Incoming out g) :
    Backs f (.reshape shape) [x] out 0 g (.reshape x.info.shape) [g] := by
  refine ⟨fun {x' y b info} hx hy hinfer hb => ?_, fun hc => ?_⟩
  · cases hx
    obtain ⟨-, i, -, rfl⟩ := OpKind.infer_reshape hinfer
    rw [@exact_relabel R f.scalar (.reshape shape) rfl _ _ _ hy, @exact_relabel R f.scalar (.reshape _) rfl _ _ _ hb]
    exact ⟨rfl, rfl⟩
  · have hvolume : volume g.dims = volume x.dims := by
      rw [hg.dims]
      exact infer_reshape_volume hf.infers
    have hcount : (g.info.withShape x.info.shape).counted = .ok g.values.length :=
      counted_of_roomy (hc.operands x (by simp)) (by rw [hg.complete.length_eq, hvolume]; rfl)
    have hsized : x.info.shape.any (· < 0) = false := by
      have hpos := hf.sized x (by simp)
      simpa [Shape.Sized] using hpos
    refine ⟨g.info.withShape x.info.shape, _, ?_, @exact_relabel_total R f.scalar (.reshape _) rfl _ _ hcount⟩
    have hgcount := hg.complete
    unfold Operand.Complete at hgcount
    simp [OpKind.infer, OpKind.operand1, bind, Except.bind, pure, Except.pure, hsized, hcount, hgcount]

/-! ## Functions of one element -/

/-- A function of one element gives a result where the sizes can be counted. -/
theorem exact_unary_total {R : Type} [Scalar R] {u : Unary} {x : Operand R} (hx : x.Complete) :
    exact (.unary u) [x] x.info = .ok ⟨x.info, x.values.map u.apply⟩ := by
  refine exact_values rfl ?_
  rw [List.length_map]
  exact hx

/-- Factors are passed from one side to the other. -/
theorem dot_map_mul (c : R) (x y : List R) (h : x.length = y.length) :
    dot (x.map (· * c)) y = dot x (y.map (· * c)) := by
  rw [dot_eq_sum, dot_eq_sum, List.length_map]
  refine Finset.sum_congr rfl fun i hi => ?_
  have hi := Finset.mem_range.1 hi
  have hi' : i < y.length := h ▸ hi
  simp [hi, hi', mul_assoc, mul_comm c]

/-- The gradient for the operand of a function that multiplies with a number. -/
theorem backs_unary {u : Unary} {c : R} (hu : ∀ v, @Unary.apply R f.scalar u v = v * c) (hf : Forward (.unary u) [x] out)
    (hg : Incoming out g) : Backs f (.unary u) [x] out 0 g (.unary u) [g] := by
  let _ := f.scalar
  obtain rfl : x.info = out := by
    have hinfos := OpKind.infer_unary hf.infers
    simpa using hinfos
  have hmap : (Unary.apply u : R → R) = (· * c) := funext hu
  refine ⟨fun {x' y b info} hx hy hinfer hb => ?_, fun _ => ⟨g.info, _, rfl, exact_unary_total hg.complete⟩⟩
  cases hx
  cases hinfer
  rw [exact_unary hy, exact_unary hb, hmap]
  refine ⟨hg.shape, dot_map_mul c _ _ ?_⟩
  rw [(hf.complete x (by simp)).length_eq, hg.length]
  rfl

/-! ## Functions of several elements -/

/-- What pairs with a gradient over weighted and stretched elements pairs with the weighted gradient, summed back. -/
theorem dot_reduceTo (f : Numbers R) {x y g v b : List R} {source target : List Nat} {w : Nat → R}
    (hb : @reduceTo R f.scalar v source target = .ok b) (hv : v.length = volume source) (hy : y.length = volume source)
    (hg : g.length = volume source) (hx : x.length = volume target)
    (hyw : ∀ i < volume source, y.getD i 0 = w i * x.getD (Index.under target source i) 0)
    (hvw : ∀ i < volume source, v.getD i 0 = w i * g.getD i 0) : dot y g = dot x b := by
  obtain ⟨-, hlen, hsum⟩ := reduceTo_ok f hb hv
  have hforward : Transforms (moving (fun i => some (Index.under target source i)) w) x y :=
    transforms_moving fun i hi => by rw [hyw i (hy ▸ hi)]; rfl
  refine hforward.dot_eq (fun j hj => ?_) (hg.trans hy.symm) (hlen.trans hx.symm)
  rw [hsum j hj, hv, hg]
  refine Finset.sum_congr rfl fun i hi => ?_
  rw [hvw i (Finset.mem_range.1 hi)]
  simp only [moving]
  split <;> simp

/-- The elements of an elementwise op. -/
theorem exact_elementwise {R : Type} [Scalar R] {kind : OpKind} {φ : List R → R} {xs : List (Operand R)}
    {out : TensorInfo} {y : Operand R} (hplan : plan kind xs out = do return .values (← elementwise φ xs out))
    (h : exact kind xs out = .ok y) : (∀ x ∈ xs, Stretches x.dims out.dims) ∧ y.values.length = volume out.dims ∧
      ∀ i < volume out.dims, y.values.getD i 0 = φ (xs.map fun x => x.values.getD (Index.under x.dims out.dims i) 0) := by
  obtain ⟨hstretch, hlen, -, hvalues⟩ := zipWith_ok (elementwise_ok (exact_values_ok hplan h))
  exact ⟨hstretch, hlen, fun i hi => hvalues i (hlen ▸ hi)⟩

/-- An elementwise op gives a result where the sizes can be counted. -/
theorem exact_elementwise_total {R : Type} [Scalar R] {kind : OpKind} {φ : List R → R} {xs : List (Operand R)}
    {out : TensorInfo} (hplan : plan kind xs out = do return .values (← elementwise φ xs out)) (hne : xs ≠ [])
    (hxs : ∀ x ∈ xs, Stretches x.dims out.dims ∧ x.Complete) (hc : Countable xs out) : ∃ y, exact kind xs out = .ok y := by
  obtain ⟨values, hvalues⟩ := zipWith_total (φ := φ) (fun x hx =>
    ⟨(hxs x hx).1, ⟨_, (hc.operands x hx).steps⟩, (hxs x hx).2.length_eq⟩) hc.result.product
  have hlen := (zipWith_ok hvalues).2.1
  refine ⟨⟨out, values⟩, exact_values ?_ (counted_of_roomy hc.result hlen)⟩
  rw [hplan, elementwise, if_neg (by simpa using hne), hvalues]
  rfl

/-- Sums over the axes that an operand was stretched along. -/
theorem exact_reduceToShape {R : Type} [Scalar R] {shape : Shape} {g b : Operand R} {info : TensorInfo}
    (h : exact (.reduceToShape shape) [g] info = .ok b) : reduceTo g.values g.dims info.dims = .ok b.values :=
  exact_values_ok rfl h

/-- What is summed back has the shape that it is summed to. -/
theorem infer_reduceToShape_total {x g : TensorInfo} {out : Shape} (hg : g.shape = out) (hx : Stretches x.shape out) :
    (OpKind.reduceToShape x.shape).infer [g] = .ok (g.withShape x.shape) := by
  have hmerged := (Shape.broadcast_of_stretches hx).1
  simp [OpKind.infer, OpKind.operand1, bind, Except.bind, OpKind.requireReducible, hg, hmerged, pure, Except.pure]

theorem values_total {R : Type} [Scalar R] {kind : OpKind} {xs : List (Operand R)} {out : TensorInfo}
    {values : List R} (hplan : plan kind xs out = .ok (.values values)) (hroom : Roomy out.dims)
    (hlen : values.length = volume out.dims) : ∃ y, exact kind xs out = .ok y :=
  ⟨_, exact_values hplan (counted_of_roomy hroom hlen)⟩

/-- A move of the first operand gives a result if all its sources are there. -/
theorem move_total {R : Type} [Scalar R] {kind : OpKind} {x : Operand R} {rest : List (Operand R)} {out : TensorInfo}
    {fill : Single} {l : Sources} (hplan : plan kind (x :: rest) out = .ok (.move [0] fill (.ok l)))
    (hl : ∀ j, some j ∈ l → j < x.values.length) (hroom : Roomy out.dims) (hlen : l.length = volume out.dims) :
    ∃ y, exact kind (x :: rest) out = .ok y := by
  obtain ⟨values, hvalues⟩ := @Storage.pick_total R x.values (Scalar.ofSingle fill) l hl
  have hcount : out.counted = .ok values.length := counted_of_roomy hroom ((pick_ok hvalues).1.trans hlen)
  refine ⟨_, exact_eq hplan ?_ hcount⟩
  change Storage.pick [x.values].flatten (Scalar.ofSingle fill) l = .ok values
  simpa using hvalues

/-- The gradient for an operand that is added as it is, wherever it stands. -/
theorem backs_reduceToShape (hx : xs[k]? = some x) (hf : Forward kind xs out) (hg : Incoming out g)
    (hstretch : Stretches x.info.shape out.shape)
    (hsum : ∀ {y}, @exact R f.scalar kind.linearPart xs out = .ok y → ∀ i < volume out.dims,
      y.values.getD i 0 = x.values.getD (Index.under x.dims out.dims i) 0) :
    Backs f kind xs out k g (.reduceToShape x.info.shape) [g] := by
  let _ := f.scalar
  have hmem := List.mem_of_getElem? hx
  refine ⟨fun {x' y b info} hx' hy hinfer hb => ?_, fun hc => ?_⟩
  · cases hx.symm.trans hx'
    obtain ⟨i, hi, rfl⟩ := OpKind.infer_reduceToShape hinfer
    refine ⟨rfl, ?_⟩
    have hb := exact_reduceToShape hb
    rw [hg.dims] at hb
    refine dot_reduceTo f (w := 1) hb hg.length (exact_length hy) hg.length (hf.complete x hmem).length_eq ?_ ?_
    · exact fun i hi => by rw [hsum hy i hi, Pi.one_apply, one_mul]; rfl
    · exact fun i _ => by rw [Pi.one_apply, one_mul]
  · have hroom := hc.operands x hmem
    obtain ⟨b, hb⟩ : ∃ b, reduceTo g.values g.dims x.dims = .ok b :=
      reduceTo_total (hg.dims ▸ Shape.stretches_dims hstretch) hroom
    have hlen := (reduceTo_ok f hb hg.complete.length_eq).2.1
    have hplan : plan (.reduceToShape x.info.shape) [g] (g.info.withShape x.info.shape) = .ok (.values b) := by
      change (reduceTo g.values g.dims x.dims >>= _) = _
      rw [hb]
      rfl
    obtain ⟨y, hy⟩ := values_total hplan hroom hlen
    exact ⟨_, y, infer_reduceToShape_total hg.shape hstretch, hy⟩

/-! ## Sums, one operand at a time -/

/-- All operands but number `k` are zero. -/
def ZeroApart (k : Nat) (xs : List (Operand R)) : Prop := ∀ j x, xs[j]? = some x → j ≠ k → ∀ v ∈ x.values, v = 0

theorem getD_zero {l : List R} (h : ∀ v ∈ l, v = 0) (i : Nat) : l.getD i 0 = 0 := by
  rw [List.getD_eq_getElem?_getD]
  cases hi : l[i]? with
  | none => rfl
  | some v => exact h v (List.mem_of_getElem? hi)

theorem ZeroApart.getD (h : ZeroApart k xs) {j : Nat} {z : Operand R} (hz : xs[j]? = some z) (hj : j ≠ k) (i : Nat) :
    z.values.getD i 0 = 0 := getD_zero (h j z hz hj) i

theorem sum_eq_of_apart : ∀ {l : List R} {k : Nat} {v : R}, l[k]? = some v →
    (∀ j w, l[j]? = some w → j ≠ k → w = 0) → l.sum = v
  | a :: l, 0, v, hv, h => by
    cases hv
    rw [List.sum_cons, List.sum_eq_zero fun w hw => ?_, add_zero]
    obtain ⟨j, hj, rfl⟩ := List.getElem_of_mem hw
    exact h (j + 1) _ (List.getElem?_eq_getElem (by simpa using hj)) (Nat.succ_ne_zero j)
  | a :: l, k + 1, v, hv, h => by
    have ha : a = 0 := h 0 a rfl (Nat.succ_ne_zero k).symm
    rw [List.sum_cons, ha, zero_add]
    exact sum_eq_of_apart hv fun j w hw hj => h (j + 1) w hw (by omega)

theorem scalar_sum_eq (f : Numbers R) (l : List R) : @Scalar.sum R f.scalar l = l.sum := by
  have hfold : ∀ (l : List R) (a : R), l.foldl (fun x y => x + y) a = a + l.sum := by
    intro l
    induction l with
    | nil => simp
    | cons x l ih => exact fun a => by rw [List.foldl_cons, ih, List.sum_cons, add_assoc]
  exact (hfold l 0).trans (zero_add _)

omit [Field R] in
/-- The shapes of both operands stretch to that of the result. -/
theorem stretches_binary {b : Binary} {x₀ x₁ : Operand R} (hf : Forward (.binary b) [x₀, x₁] out) :
    ∀ z ∈ [x₀, x₁], Stretches z.info.shape out.shape := by
  obtain ⟨i, j, s, hij, hs, rfl⟩ := OpKind.infer_binary hf.infers
  cases hij
  obtain ⟨h₀, h₁⟩ := Shape.stretches_of_broadcast hs
  intro z hz
  rcases List.mem_pair.1 hz with rfl | rfl
  · exact h₀
  · exact h₁

/-- The elements of a function of two elements. -/
theorem exact_binary {b : Binary} {x₀ x₁ y : Operand R} (h : @exact R f.scalar (.binary b) [x₀, x₁] out = .ok y) :
    ∀ i < volume out.dims, y.values.getD i 0 = @Binary.apply R f.scalar b
      (x₀.values.getD (Index.under x₀.dims out.dims i) 0) (x₁.values.getD (Index.under x₁.dims out.dims i) 0) :=
  (@exact_elementwise R f.scalar (.binary b) _ _ _ _ rfl h).2.2

/-- The gradients for summands, and for what is subtracted from. -/
theorem backs_add_left {x₀ x₁ : Operand R} (hf : Forward (.binary .add) [x₀, x₁] out) (hg : Incoming out g)
    (hzero : ZeroApart 0 [x₀, x₁]) :
    Backs f (.binary .add) [x₀, x₁] out 0 g (.reduceToShape x₀.info.shape) [g] := by
  refine backs_reduceToShape rfl hf hg (stretches_binary hf x₀ (by simp)) fun hy i hi => ?_
  rw [exact_binary hy i hi]
  change _ + _ = _
  rw [hzero.getD (j := 1) rfl (by decide), add_zero]

theorem backs_add_right {x₀ x₁ : Operand R} (hf : Forward (.binary .add) [x₀, x₁] out) (hg : Incoming out g)
    (hzero : ZeroApart 1 [x₀, x₁]) :
    Backs f (.binary .add) [x₀, x₁] out 1 g (.reduceToShape x₁.info.shape) [g] := by
  refine backs_reduceToShape rfl hf hg (stretches_binary hf x₁ (by simp)) fun hy i hi => ?_
  rw [exact_binary hy i hi]
  change _ + _ = _
  rw [hzero.getD (j := 0) rfl (by decide), zero_add]

theorem backs_sub_left {x₀ x₁ : Operand R} (hf : Forward (.binary .sub) [x₀, x₁] out) (hg : Incoming out g)
    (hzero : ZeroApart 0 [x₀, x₁]) :
    Backs f (.binary .sub) [x₀, x₁] out 0 g (.reduceToShape x₀.info.shape) [g] := by
  refine backs_reduceToShape rfl hf hg (stretches_binary hf x₀ (by simp)) fun hy i hi => ?_
  rw [exact_binary hy i hi]
  change _ - _ = _
  rw [hzero.getD (j := 1) rfl (by decide), sub_zero]

theorem stretches_broadcastAll : ∀ {l : List TensorInfo} {first s : Shape}, OpKind.broadcastAll first l = .ok s →
    Stretches first s ∧ ∀ i ∈ l, Stretches i.shape s
  | [], first, s, h => by
    cases h
    exact ⟨.refl _, nofun⟩
  | i :: l, first, s, h => by
    rw [OpKind.broadcastAll, List.foldlM_cons] at h
    obtain ⟨s₁, hs₁, h⟩ := Outcome.bind_eq_ok.1 h
    obtain ⟨hfirst, hrest⟩ := stretches_broadcastAll (l := l) h
    obtain ⟨h₀, h₁⟩ := Shape.stretches_of_broadcast hs₁
    refine ⟨h₀.trans hfirst, fun j hj => ?_⟩
    rcases List.mem_cons.1 hj with rfl | hj
    · exact h₁.trans hfirst
    · exact hrest j hj

omit [Field R] in
/-- The shapes of all summands stretch to that of the sum. -/
theorem stretches_sum (hf : Forward .sum xs out) : ∀ z ∈ xs, Stretches z.info.shape out.shape := by
  match xs, hf with
  | [], hf => exact nofun
  | x₀ :: rest, hf =>
    obtain ⟨s, hs, h⟩ := Outcome.bind_eq_ok.1 hf.infers
    cases h
    obtain ⟨hfirst, hrest⟩ := stretches_broadcastAll hs
    intro z hz
    rcases List.mem_cons.1 hz with rfl | hz
    · exact hfirst
    · exact hrest z.info (List.mem_map_of_mem hz)

/-- The gradient for a summand. -/
theorem backs_sum (hx : xs[k]? = some x) (hf : Forward .sum xs out) (hg : Incoming out g) (hzero : ZeroApart k xs) :
    Backs f .sum xs out k g (.reduceToShape x.info.shape) [g] := by
  refine backs_reduceToShape hx hf hg (stretches_sum hf x (List.mem_of_getElem? hx)) fun hy i hi => ?_
  rw [(@exact_elementwise R f.scalar .sum _ _ _ _ rfl hy).2.2 i hi, scalar_sum_eq]
  refine sum_eq_of_apart (k := k) (by rw [List.getElem?_map, hx]; rfl) fun j w hw hj => ?_
  rw [List.getElem?_map] at hw
  obtain ⟨z, hz, rfl⟩ := Option.map_eq_some_iff.1 hw
  exact hzero.getD hz hj _

/-! ## Products with what the gradient needs -/

/-- The gradient for an operand, computed at the shape of the result. -/
theorem operandGrad_eq {R : Type} [Scalar R] {fg : OperandGrad} {g : Operand R} {rest : List (Operand R)}
    {out info : TensorInfo} (harity : fg.arity = rest.length + 1) (hg : g.info.shape = out.shape)
    (hrest : ∀ z ∈ rest, Stretches z.info.shape out.shape) : operandGrad fg (g :: rest) info =
      zipWith fg.apply (g :: rest) out.dims >>= fun v => reduceTo v out.dims info.dims := by
  have hfull : (g :: rest).foldlM (fun s x => Shape.broadcast s x.info.shape) [] = .ok out.shape := by
    have hfold : ∀ l : List (Operand R), (∀ z ∈ l, Stretches z.info.shape out.shape) →
        l.foldlM (fun s x => Shape.broadcast s x.info.shape) out.shape = .ok out.shape := by
      intro l
      induction l with
      | nil => exact fun _ => rfl
      | cons z l ih =>
        intro hl
        rw [List.foldlM_cons, (Shape.broadcast_of_stretches (hl z (by simp))).2]
        exact ih fun z' hz' => hl z' (List.mem_cons_of_mem z hz')
    have hempty : Stretches ([] : Shape) out.shape := ⟨Nat.zero_le _, by simp⟩
    rw [List.foldlM_cons, hg, (Shape.broadcast_of_stretches hempty).1]
    exact hfold rest hrest
  unfold operandGrad
  rw [Operand.requireCount, if_neg (by simp [harity]), hfull]
  rfl

/-- The gradient for an operand that is multiplied, element by element, with something that does not depend on it. -/
theorem backs_operandGrad {fg : OperandGrad} {rest : List (Operand R)} {w : Nat → R} (hx : xs[k]? = some x)
    (hf : Forward kind xs out) (hg : Incoming out g) (hrest : ∀ z ∈ rest, z ∈ xs)
    (hstretch : ∀ z ∈ xs, Stretches z.info.shape out.shape) (harity : fg.arity = rest.length + 1)
    (hinfer : (OpKind.operandGrad fg x.info.shape).infer ((g :: rest).map (·.info)) = .ok (g.info.withShape x.info.shape))
    (hyw : ∀ {y}, @exact R f.scalar kind.linearPart xs out = .ok y → ∀ i < volume out.dims,
      y.values.getD i 0 = w i * x.values.getD (Index.under x.dims out.dims i) 0)
    (hvw : ∀ i < volume out.dims, @OperandGrad.apply R f.scalar fg
      (g.values.getD i 0 :: rest.map fun z => z.values.getD (Index.under z.dims out.dims i) 0) = w i * g.values.getD i 0) :
    Backs f kind xs out k g (.operandGrad fg x.info.shape) (g :: rest) := by
  let _ := f.scalar
  have hmem := List.mem_of_getElem? hx
  have heq : ∀ {info : TensorInfo}, operandGrad fg (g :: rest) info =
      zipWith fg.apply (g :: rest) out.dims >>= fun v => reduceTo v out.dims info.dims :=
    operandGrad_eq harity hg.shape fun z hz => hstretch z (hrest z hz)
  have hweights : ∀ {v : List R}, zipWith fg.apply (g :: rest) out.dims = .ok v →
      v.length = volume out.dims ∧ ∀ i < volume out.dims, v.getD i 0 = w i * g.values.getD i 0 := by
    intro v hv
    obtain ⟨-, hlen, -, hvalues⟩ := zipWith_ok hv
    refine ⟨hlen, fun i hi => ?_⟩
    rw [hvalues i (hlen ▸ hi), List.map_cons, hg.dims, Index.under_self hi]
    exact hvw i hi
  refine ⟨fun {x' y b info} hx' hy hinfer' hb => ?_, fun hc => ?_⟩
  · cases hx.symm.trans hx'
    cases hinfer.symm.trans hinfer'
    refine ⟨rfl, ?_⟩
    have hb : operandGrad fg (g :: rest) (g.info.withShape x.info.shape) = .ok b.values := exact_values_ok rfl hb
    rw [heq] at hb
    obtain ⟨v, hv, hb⟩ := Outcome.bind_eq_ok.1 hb
    obtain ⟨hlen, hvalues⟩ := hweights hv
    exact dot_reduceTo f hb hlen (exact_length hy) hg.length (hf.complete x hmem).length_eq (hyw hy) hvalues
  · have hroom := hc.operands x hmem
    obtain ⟨v, hv⟩ : ∃ v, zipWith fg.apply (g :: rest) out.dims = .ok v := by
      refine zipWith_total (fun z hz => ?_) hc.result.product
      rcases List.mem_cons.1 hz with rfl | hz
      · exact ⟨hg.dims ▸ .refl _, ⟨_, (hg.dims ▸ hc.result).steps⟩, hg.complete.length_eq⟩
      · exact ⟨Shape.stretches_dims (hstretch z (hrest z hz)), ⟨_, (hc.operands z (hrest z hz)).steps⟩,
          (hf.complete z (hrest z hz)).length_eq⟩
    obtain ⟨b, hb⟩ : ∃ b, reduceTo v out.dims x.dims = .ok b :=
      reduceTo_total (Shape.stretches_dims (hstretch x hmem)) hroom
    have hplan : plan (.operandGrad fg x.info.shape) (g :: rest) (g.info.withShape x.info.shape) = .ok (.values b) := by
      change (operandGrad fg (g :: rest) (g.info.withShape x.info.shape) >>= _) = _
      rw [heq, hv]
      change (reduceTo v out.dims x.dims >>= _) = _
      rw [hb]
      rfl
    obtain ⟨y, hy⟩ := values_total hplan hroom (reduceTo_ok f hb (hweights hv).1).2.1
    exact ⟨_, y, hinfer, hy⟩

theorem infer_subRight_total {x g : TensorInfo} {out : Shape} (hg : g.shape = out) (hx : Stretches x.shape out) :
    (OpKind.operandGrad .subRight x.shape).infer [g] = .ok (g.withShape x.shape) := by
  have hmerged := (Shape.broadcast_of_stretches hx).1
  simp [OpKind.infer, OpKind.operand1, bind, Except.bind, OpKind.requireReducible, hg, hmerged, pure, Except.pure]

theorem infer_factor_total {fg : OperandGrad} (hfg : fg = .mul ∨ fg = .divLeft) {x z g : TensorInfo} {out : Shape}
    (hg : g.shape = out) (hx : Stretches x.shape out) (hz : Stretches z.shape out) :
    (OpKind.operandGrad fg x.shape).infer [g, z] = .ok (g.withShape x.shape) := by
  have hmerged := (Shape.broadcast_of_stretches hx).1
  have hfull := (Shape.broadcast_of_stretches hz).2
  rcases hfg with rfl | rfl <;>
    simp [OpKind.infer, OpKind.operand2, bind, Except.bind, OpKind.requireReducible, hg, hmerged, hfull, pure, Except.pure]

/-- The gradient for what is subtracted. -/
theorem backs_sub_right {x₀ x₁ : Operand R} (hf : Forward (.binary .sub) [x₀, x₁] out) (hg : Incoming out g)
    (hzero : ZeroApart 1 [x₀, x₁]) :
    Backs f (.binary .sub) [x₀, x₁] out 1 g (.operandGrad .subRight x₁.info.shape) [g] := by
  have hstretch := stretches_binary hf
  refine backs_operandGrad (w := fun _ => -1) rfl hf hg nofun hstretch rfl
    (infer_subRight_total hg.shape (hstretch x₁ (by simp))) (fun hy i hi => ?_) fun i _ => ?_
  · rw [exact_binary hy i hi]
    change _ - _ = _
    rw [hzero.getD (j := 0) rfl (by decide), zero_sub, neg_one_mul]
  · exact (neg_one_mul _).symm

/-- The gradients for factors. -/
theorem backs_mul_left {x₀ x₁ : Operand R} (hf : Forward (.binary .mul) [x₀, x₁] out) (hg : Incoming out g) :
    Backs f (.binary .mul) [x₀, x₁] out 0 g (.operandGrad .mul x₀.info.shape) [g, x₁] := by
  have hstretch := stretches_binary hf
  refine backs_operandGrad (w := fun i => x₁.values.getD (Index.under x₁.dims out.dims i) 0) rfl hf hg
    (by simp) hstretch rfl
    (infer_factor_total (.inl rfl) hg.shape (hstretch x₀ (by simp)) (hstretch x₁ (by simp))) (fun hy i hi => ?_) fun i _ => ?_
  · exact (exact_binary hy i hi).trans (mul_comm _ _)
  · exact mul_comm _ _

theorem backs_mul_right {x₀ x₁ : Operand R} (hf : Forward (.binary .mul) [x₀, x₁] out) (hg : Incoming out g) :
    Backs f (.binary .mul) [x₀, x₁] out 1 g (.operandGrad .mul x₁.info.shape) [g, x₀] := by
  have hstretch := stretches_binary hf
  refine backs_operandGrad (w := fun i => x₀.values.getD (Index.under x₀.dims out.dims i) 0) rfl hf hg
    (by simp) hstretch rfl
    (infer_factor_total (.inl rfl) hg.shape (hstretch x₁ (by simp)) (hstretch x₀ (by simp))) (fun hy i hi => ?_) fun i _ => ?_
  · exact exact_binary hy i hi
  · exact mul_comm _ _

/-- The gradient for a dividend. -/
theorem backs_div_left {x₀ x₁ : Operand R} (hf : Forward (.binary .div) [x₀, x₁] out) (hg : Incoming out g) :
    Backs f (.binary .div) [x₀, x₁] out 0 g (.operandGrad .divLeft x₀.info.shape) [g, x₁] := by
  have hstretch := stretches_binary hf
  refine backs_operandGrad (w := fun i => (x₁.values.getD (Index.under x₁.dims out.dims i) 0)⁻¹) rfl hf
    hg (by simp) hstretch rfl
    (infer_factor_total (.inr rfl) hg.shape (hstretch x₀ (by simp)) (hstretch x₁ (by simp))) (fun hy i hi => ?_) fun i _ => ?_
  · exact (exact_binary hy i hi).trans (div_eq_inv_mul _ _)
  · exact div_eq_inv_mul _ _

end Kernel

end TensorGraph
