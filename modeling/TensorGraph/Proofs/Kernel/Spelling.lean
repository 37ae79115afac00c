import TensorGraph.Proofs.Kernel.Adjoint

/-!
Gradient kernels spelled out in plain ones. The kernel of a gradient works on all its operands at once, at the shape that
they have together, and sums the result once. The plain kernels work on two operands at a time, and each stretches what the
one before it gave; elements meet in the same places, because what stands under what stands under a position stands under it.
-/
namespace TensorGraph

theorem Shape.broadcast_nil (s : Shape) : Shape.broadcast [] s = .ok s :=
  (broadcast_of_stretches ⟨Nat.zero_le _, by simp⟩).1

namespace Kernel

/-! ## Operands that can be read -/

section Reads

variable {R : Type} {x z : Operand R} {xs : List (Operand R)} {dims whole : List Nat} {i : Nat}

/-- The elements of an operand can be found at the positions of a shape. -/
structure Reads (x : Operand R) (dims : List Nat) : Prop where
  stretches : Stretches x.dims dims
  steps : ∃ l, Index.steps x.dims = .ok l
  length : x.values.length = volume x.dims

/-- Another shape that the operand stretches to. -/
theorem Reads.at (h : Reads x whole) (hx : Stretches x.dims dims) : Reads x dims := ⟨hx, h.steps, h.length⟩

/-- Where elements are found depends on the extents alone. -/
theorem Reads.congr (h : Reads x dims) (hz : z.dims = x.dims) (hlen : z.values.length = x.values.length) : Reads z dims :=
  ⟨hz ▸ h.stretches, hz ▸ h.steps, by rw [hlen, hz, h.length]⟩

/-- The element of an operand at a position of a shape that it stretches to. -/
def elementAt [Zero R] (x : Operand R) (dims : List Nat) (i : Nat) : R := x.values.getD (Index.under x.dims dims i) 0

theorem Reads.elementAt_map [Zero R] (h : Reads x dims) (hi : i < volume dims) {w : R → R} (hz : z.dims = x.dims)
    (hv : z.values = x.values.map w) : elementAt z dims i = w (elementAt x dims i) := by
  have hlt : Index.under x.dims dims i < x.values.length := h.length ▸ Index.under_lt h.stretches hi
  rw [elementAt, elementAt, hz, hv, List.getD_eq_getElem _ _ hlt, List.getD_eq_getElem _ _ (by rwa [List.length_map]),
    List.getElem_map]

/-- What was read can be read again. -/
theorem reads_of_zipWith {φ : List R → R} {values : List R} (h : zipWith φ xs dims = .ok values)
    (hxs : ∀ x ∈ xs, x.Complete) : ∀ x ∈ xs, Reads x dims := by
  intro x hx
  obtain ⟨sources, hsources, -⟩ := Outcome.bind_eq_ok.1 h
  obtain ⟨s, -, hs⟩ := exists_of_forall₂ (Outcome.mapM_eq_ok.1 hsources) x hx
  obtain ⟨indices, hindices, -⟩ := Outcome.bind_eq_ok.1 hs
  refine ⟨(Index.broadcastSources_ok hindices).1, ?_, (hxs x hx).length_eq⟩
  unfold Index.broadcastSources at hindices
  split at hindices
  · cases hindices
  · obtain ⟨l, hl, -⟩ := Outcome.bind_eq_ok.1 hindices
    exact ⟨l, hl⟩

end Reads

variable {R : Type} [Field R] {f : Numbers R} {x x₀ x₁ x₂ y : Operand R} {s shape : Shape} {xs : List (Operand R)}

/-! ## Plain calls -/

/-- Whatever info is inferred for the result, the call gives `y`. -/
def ComesTo (f : Numbers R) (kind : OpKind) (xs : List (Operand R)) (y : Operand R) : Prop :=
  ∀ info, kind.infer (xs.map (·.info)) = .ok info → @exact R f.scalar kind xs info = .ok y

/-- A function of one element. -/
theorem unary_total (f : Numbers R) (u : Unary) (hx : x.Complete) : ∃ z, z.info = x.info ∧ z.Complete ∧
    z.values = x.values.map (@Unary.apply R f.scalar u) ∧ ComesTo f (.unary u) [x] z := by
  let _ := f.scalar
  have hcount : (⟨x.info, x.values.map u.apply⟩ : Operand R).Complete := by
    rw [Operand.Complete, List.length_map]
    exact hx
  refine ⟨⟨x.info, x.values.map u.apply⟩, rfl, hcount, rfl, fun info hinfer => ?_⟩
  cases OpKind.infer_unary hinfer
  exact exact_unary_total hx

/-- A function of two elements. -/
theorem binary_total (f : Numbers R) (b : Binary) (hs : x₀.info.shape.broadcast x₁.info.shape = .ok s)
    (h₀ : Reads x₀ s.dims) (h₁ : Reads x₁ s.dims) (hcount : ∃ n, Word.product s.dims = .ok n) :
    ∃ z, z.info = x₀.info.withShape s ∧ z.Complete ∧ ComesTo f (.binary b) [x₀, x₁] z ∧ ∀ i < volume s.dims,
      z.values.getD i 0 = @Binary.apply R f.scalar b (elementAt x₀ s.dims i) (elementAt x₁ s.dims i) := by
  let _ := f.scalar
  obtain ⟨n, hn⟩ := hcount
  cases Word.product_eq hn
  obtain ⟨values, hv⟩ : ∃ values, zipWith (onPair b.apply) [x₀, x₁] s.dims = .ok values := by
    refine zipWith_total (fun z hz => ?_) hn
    rcases List.mem_cons.1 hz with rfl | hz
    · exact ⟨h₀.stretches, h₀.steps, h₀.length⟩
    · cases List.mem_singleton.1 hz
      exact ⟨h₁.stretches, h₁.steps, h₁.length⟩
  obtain ⟨-, hlen, hproduct, hvalues⟩ := zipWith_ok hv
  refine ⟨⟨x₀.info.withShape s, values⟩, rfl, hproduct, fun info hinfer => ?_, fun i hi => hvalues i (hlen ▸ hi)⟩
  obtain ⟨i, j, s', hinfos, hs', rfl⟩ := OpKind.infer_binary hinfer
  cases hinfos
  cases hs.symm.trans hs'
  refine exact_values ?_ hproduct
  change (zipWith (onPair b.apply) [x₀, x₁] s.dims >>= _) = _
  rw [hv]
  rfl

/-! ## Functions of one element -/

/-- The gradient of a function of one element as a function of two elements, where the second operand and the result may
still be changed one by one. -/
theorem unaryGrad_spelled {u : UnaryGrad} {b : Binary} {w post : R → R} {d : Operand R} (hx₀ : x₀.Complete)
    (hx₁ : x₁.Complete) (hstretch : Stretches x₁.info.shape x₀.info.shape) (hd : d.info = x₁.info)
    (hw : d.values = x₁.values.map w)
    (happly : ∀ p q, @UnaryGrad.apply R f.scalar u p q = post (@Binary.apply R f.scalar b p (w q)))
    (h : @exact R f.scalar (.unaryGrad u) [x₀, x₁] x₀.info = .ok y) : ∃ z, z.info = x₀.info ∧ z.Complete ∧
      ComesTo f (.binary b) [x₀, d] z ∧ y = ⟨x₀.info, z.values.map post⟩ := by
  let _ := f.scalar
  have hzip : zipWith (onPair u.apply) [x₀, x₁] x₀.dims = .ok y.values := elementwise_ok (exact_values_ok rfl h)
  have hreads := reads_of_zipWith hzip (by simp [hx₀, hx₁])
  obtain ⟨-, hlen, hproduct, hvalues⟩ := zipWith_ok hzip
  have h₁ := hreads x₁ (by simp)
  have hdims : d.dims = x₁.dims := congrArg TensorInfo.dims hd
  obtain ⟨z, hz, hcomplete, hyields, hentries⟩ := binary_total (s := x₀.info.shape) f b
    (hd ▸ (Shape.broadcast_of_stretches hstretch).2) (hreads x₀ (by simp))
    (h₁.congr hdims (by rw [hw, List.length_map])) ⟨_, hproduct⟩
  refine ⟨z, hz, hcomplete, hyields, ?_⟩
  have hzlen : z.values.length = volume x₀.dims := hcomplete.length_eq.trans (by rw [Operand.dims, hz]; rfl)
  have hsame : y.values = z.values.map post := by
    refine eq_of_getD (by rw [List.length_map, hlen, hzlen]) fun i hi => ?_
    have hi' : i < volume x₀.dims := hlen ▸ hi
    have hiz : i < z.values.length := hzlen ▸ hi'
    have hat : elementAt d x₀.info.shape.dims i = w (elementAt x₁ x₀.dims i) := h₁.elementAt_map hi' hdims hw
    rw [hvalues i hi, List.getD_eq_getElem _ _ (by rwa [List.length_map]), List.getElem_map,
      ← List.getD_eq_getElem z.values 0 hiz, hentries i hi', hat]
    exact happly _ _
  obtain ⟨info, values⟩ := y
  cases (exact_ok h).1
  cases hsame
  rfl

/-- The gradient of a square root. -/
theorem sqrtGrad_spelled (hx₀ : x₀.Complete) (hx₁ : x₁.Complete) (hstretch : Stretches x₁.info.shape x₀.info.shape)
    (h : @exact R f.scalar (.unaryGrad .sqrt) [x₀, x₁] x₀.info = .ok y) :
    ∃ d, ComesTo f (.unary (.scale .two)) [x₁] d ∧ ComesTo f (.binary .div) [x₀, d] y := by
  have happly : ∀ p q, @UnaryGrad.apply R f.scalar .sqrt p q =
      id (@Binary.apply R f.scalar .div p (@Unary.apply R f.scalar (.scale .two) q)) := by
    intro p q
    change p / (((2 : Nat) : R) * q) = p / (q * f.ofSingle .two)
    rw [f.ofSingle_two, mul_comm, Nat.cast_ofNat]
  obtain ⟨d, hd, -, hw, hscale⟩ := unary_total f (.scale .two) hx₁
  obtain ⟨z, hz, -, hdiv, rfl⟩ := unaryGrad_spelled hx₀ hx₁ hstretch hd hw happly h
  rw [List.map_id, ← hz]
  exact ⟨d, hscale, hdiv⟩

/-- The gradient of a reciprocal. -/
theorem reciprocalGrad_spelled (hx₀ : x₀.Complete) (hx₁ : x₁.Complete)
    (hstretch : Stretches x₁.info.shape x₀.info.shape)
    (h : @exact R f.scalar (.unaryGrad .reciprocal) [x₀, x₁] x₀.info = .ok y) :
    ∃ d q, ComesTo f (.unary .square) [x₁] d ∧ ComesTo f (.binary .div) [x₀, d] q ∧ ComesTo f (.unary .neg) [q] y := by
  have happly : ∀ p q, @UnaryGrad.apply R f.scalar .reciprocal p q =
      @Unary.apply R f.scalar .neg (@Binary.apply R f.scalar .div p (@Unary.apply R f.scalar .square q)) :=
    fun p q => neg_div (q * q) p
  obtain ⟨d, hd, -, hw, hsquare⟩ := unary_total f .square hx₁
  obtain ⟨q, hq, hcomplete, hdiv, rfl⟩ := unaryGrad_spelled hx₀ hx₁ hstretch hd hw happly h
  obtain ⟨n, hn, -, hvalues, hneg⟩ := unary_total f .neg hcomplete
  rw [← hvalues, ← hq, ← hn]
  exact ⟨d, q, hsquare, hdiv, hneg⟩

/-- The gradient of an exponential. -/
theorem expGrad_spelled (hx₀ : x₀.Complete) (hx₁ : x₁.Complete) (hstretch : Stretches x₁.info.shape x₀.info.shape)
    (h : @exact R f.scalar (.unaryGrad .exp) [x₀, x₁] x₀.info = .ok y) : ComesTo f (.binary .mul) [x₀, x₁] y := by
  have happly : ∀ p q, @UnaryGrad.apply R f.scalar .exp p q = id (@Binary.apply R f.scalar .mul p (id q)) :=
    fun _ _ => rfl
  obtain ⟨z, hz, -, hmul, rfl⟩ := unaryGrad_spelled hx₀ hx₁ hstretch rfl (List.map_id _).symm happly h
  rwa [List.map_id, ← hz]

/-! ## Gradients for an operand -/

/-- The gradient for an operand is a sum of what is computed at the shape of all operands together. -/
theorem operandGrad_ok {R : Type} [Scalar R] {fg : OperandGrad} {xs : List (Operand R)} {out : TensorInfo} {y : Operand R}
    (h : exact (.operandGrad fg shape) xs out = .ok y) : xs.length = fg.arity ∧ ∃ full values,
      xs.foldlM (fun s x => Shape.broadcast s x.info.shape) [] = .ok full ∧ zipWith fg.apply xs full.dims = .ok values ∧
      reduceTo values full.dims out.dims = .ok y.values := by
  have hgrad : operandGrad fg xs out = .ok y.values := exact_values_ok rfl h
  obtain ⟨_, hcount, hgrad⟩ := Outcome.bind_eq_ok.1 hgrad
  obtain ⟨full, hfull, hgrad⟩ := Outcome.bind_eq_ok.1 hgrad
  obtain ⟨values, hvalues, hgrad⟩ := Outcome.bind_eq_ok.1 hgrad
  unfold Operand.requireCount at hcount
  split at hcount
  · cases hcount
  · rename_i hlen
    exact ⟨not_not.1 hlen, full, values, Outcome.asExecution_eq_ok.1 hfull, hvalues, hgrad⟩

/-- The sum may be that of an op of its own, on what was computed. -/
theorem yields_reduceToShape {fg : OperandGrad} {full : Shape} {values : List R} {z : Operand R}
    (h : @exact R f.scalar (.operandGrad fg shape) xs (x.info.withShape shape) = .ok y)
    (hsum : @reduceTo R f.scalar values full.dims (x.info.withShape shape).dims = .ok y.values)
    (hz : z.info = x.info.withShape full) (hlen : values.length = z.values.length)
    (hsame : ∀ i < values.length, values.getD i 0 = z.values.getD i 0) : ComesTo f (.reduceToShape shape) [z] y := by
  let _ := f.scalar
  obtain rfl := eq_of_getD hlen hsame
  intro info hinfer
  obtain ⟨i, hi, rfl⟩ := OpKind.infer_reduceToShape hinfer
  cases hi
  obtain ⟨hinfo, hcount, -⟩ := exact_ok h
  change exact (.reduceToShape shape) [z] (z.info.withShape shape) = _
  rw [hz]
  have hplan : plan (.reduceToShape shape) [z] (x.info.withShape shape) = .ok (.values y.values) := by
    change (reduceTo z.values z.info.dims (x.info.withShape shape).dims >>= _) = _
    rw [hz, show (x.info.withShape full).dims = full.dims from rfl, hsum]
    rfl
  change exact (.reduceToShape shape) [z] (x.info.withShape shape) = _
  rw [exact_values hplan hcount, ← hinfo]

/-- The gradient of a subtrahend. -/
theorem subRightGrad_spelled (hxs : ∀ x ∈ xs, x.Complete) (hfirst : xs.head? = some x)
    (h : @exact R f.scalar (.operandGrad .subRight shape) xs (x.info.withShape shape) = .ok y) :
    xs = [x] ∧ ∃ n, ComesTo f (.unary .neg) [x] n ∧ ComesTo f (.reduceToShape shape) [n] y := by
  let _ := f.scalar
  obtain ⟨hlen, full, values, hfull, hvalues, hsum⟩ := operandGrad_ok h
  obtain ⟨z, rfl⟩ := List.length_eq_one_iff.1 hlen
  cases hfirst
  rw [List.foldlM_cons, Shape.broadcast_nil] at hfull
  cases hfull
  have hreads := reads_of_zipWith hvalues hxs x (by simp)
  obtain ⟨n, hn, hcomplete, hw, hneg⟩ := unary_total f .neg (hxs x (by simp))
  have hdims : n.dims = x.dims := congrArg TensorInfo.dims hn
  obtain ⟨-, hlen, -, hentries⟩ := zipWith_ok hvalues
  have hnlen : values.length = n.values.length := hlen.trans (hdims ▸ hcomplete.length_eq).symm
  refine ⟨rfl, n, hneg, yields_reduceToShape h hsum hn hnlen fun i hi => ?_⟩
  have hi' : i < volume x.dims := hlen ▸ hi
  have hself : n.values.getD i 0 = elementAt n x.dims i := by
    rw [elementAt, hdims, Index.under_self hi']
  have hat : elementAt n x.dims i = Unary.apply .neg (elementAt x x.dims i) := hreads.elementAt_map hi' hdims hw
  rw [hentries i hi, hself, hat]
  rfl

/-- The gradients of factors and dividends. -/
theorem factorGrad_spelled {fg : OperandGrad} {b : Binary} (harity : fg.arity = 2)
    (happly : ∀ p q, @OperandGrad.apply R f.scalar fg [p, q] = @Binary.apply R f.scalar b p q)
    (hxs : ∀ x ∈ xs, x.Complete) (hfirst : xs.head? = some x)
    (h : @exact R f.scalar (.operandGrad fg shape) xs (x.info.withShape shape) = .ok y) :
    ∃ x₁ q, xs = [x, x₁] ∧ ComesTo f (.binary b) [x, x₁] q ∧ ComesTo f (.reduceToShape shape) [q] y := by
  let _ := f.scalar
  obtain ⟨hlen, full, values, hfull, hvalues, hsum⟩ := operandGrad_ok h
  obtain ⟨z, x₁, rfl⟩ := List.length_eq_two.1 (hlen.trans harity)
  cases hfirst
  rw [List.foldlM_cons, Shape.broadcast_nil] at hfull
  obtain ⟨_, hstart, hfull⟩ := Outcome.bind_eq_ok.1 hfull
  cases hstart
  obtain ⟨s, hs, hfull⟩ := Outcome.bind_eq_ok.1 hfull
  cases hfull
  have hreads := reads_of_zipWith hvalues hxs
  obtain ⟨-, hlen, hproduct, hentries⟩ := zipWith_ok hvalues
  obtain ⟨q, hq, hcomplete, hyields, hqentries⟩ :=
    binary_total f b hs (hreads x (by simp)) (hreads x₁ (by simp)) ⟨_, hproduct⟩
  have hqlen : q.values.length = volume full.dims := hcomplete.length_eq.trans (by rw [Operand.dims, hq]; rfl)
  refine ⟨x₁, q, rfl, hyields, yields_reduceToShape h hsum hq (hlen.trans hqlen.symm) fun i hi => ?_⟩
  rw [hentries i hi, hqentries i (hlen ▸ hi), ← happly]
  rfl

/-- The size of the product that is computed first can be counted, from either end. -/
def ProductCounted (i j : TensorInfo) : Prop := ∀ s, i.shape.broadcast j.shape = .ok s →
  (∃ n, Word.product s.dims = .ok n) ∧ ∃ l, Index.steps s.dims = .ok l

/-- The gradient of a divisor. -/
theorem divRightGrad_spelled (hxs : ∀ x ∈ xs, x.Complete) (hfirst : xs.head? = some x)
    (hcounted : ∀ x₁ rest, xs = x :: x₁ :: rest → ProductCounted x.info x₁.info)
    (h : @exact R f.scalar (.operandGrad .divRight shape) xs (x.info.withShape shape) = .ok y) :
    ∃ x₁ x₂ m d q n, xs = [x, x₁, x₂] ∧ ComesTo f (.binary .mul) [x, x₁] m ∧ ComesTo f (.unary .square) [x₂] d ∧
      ComesTo f (.binary .div) [m, d] q ∧ ComesTo f (.unary .neg) [q] n ∧ ComesTo f (.reduceToShape shape) [n] y := by
  let _ := f.scalar
  obtain ⟨hlen, full, values, hfull, hvalues, hsum⟩ := operandGrad_ok h
  obtain ⟨z, x₁, x₂, rfl⟩ := List.length_eq_three.1 hlen
  cases hfirst
  rw [List.foldlM_cons, Shape.broadcast_nil] at hfull
  obtain ⟨_, hstart, hfull⟩ := Outcome.bind_eq_ok.1 hfull
  cases hstart
  obtain ⟨s, hs, hfull⟩ := Outcome.bind_eq_ok.1 hfull
  obtain ⟨s', hs', hfull⟩ := Outcome.bind_eq_ok.1 hfull
  cases hfull
  have hreads := reads_of_zipWith hvalues hxs
  obtain ⟨h₀, h₁, h₂⟩ : Reads x full.dims ∧ Reads x₁ full.dims ∧ Reads x₂ full.dims :=
    ⟨hreads x (by simp), hreads x₁ (by simp), hreads x₂ (by simp)⟩
  obtain ⟨-, hlen, hproduct, hentries⟩ := zipWith_ok hvalues
  obtain ⟨hcount, hsteps⟩ := hcounted x₁ [x₂] rfl s hs
  have hx : Stretches x.dims s.dims := Shape.stretches_dims (Shape.stretches_of_broadcast hs).1
  have hx₁ : Stretches x₁.dims s.dims := Shape.stretches_dims (Shape.stretches_of_broadcast hs).2
  obtain ⟨m, hm, hmcomplete, hmul, hmentries⟩ := binary_total f .mul hs (h₀.at hx) (h₁.at hx₁) hcount
  obtain ⟨d, hd, -, hdvalues, hsquare⟩ := unary_total f .square (hxs x₂ (by simp))
  have hmdims : m.dims = s.dims := congrArg TensorInfo.dims hm
  have hddims : d.dims = x₂.dims := congrArg TensorInfo.dims hd
  have hmreads : Reads m full.dims := by
    refine ⟨?_, by rwa [hmdims], hmcomplete.length_eq⟩
    rw [hmdims]
    exact Shape.stretches_dims (Shape.stretches_of_broadcast hs').1
  obtain ⟨q, hq, hqcomplete, hdiv, hqentries⟩ := binary_total f .div (by rw [hm, hd]; exact hs') hmreads
    (h₂.congr hddims (by rw [hdvalues, List.length_map])) ⟨_, hproduct⟩
  obtain ⟨n, hn, hncomplete, hnvalues, hneg⟩ := unary_total f .neg hqcomplete
  have hninfo : n.info = x.info.withShape full := by rw [hn, hq, hm]; rfl
  have hqlen : q.values.length = volume full.dims := hqcomplete.length_eq.trans (by rw [Operand.dims, hq]; rfl)
  refine ⟨x₁, x₂, m, d, q, n, rfl, hmul, hsquare, hdiv, hneg, yields_reduceToShape h hsum hninfo
    (by rw [hlen, hnvalues, List.length_map, hqlen]) fun i hi => ?_⟩
  have hi' : i < volume full.dims := hlen ▸ hi
  -- the product is read at positions that stand under those of the result
  have hmat : elementAt m full.dims i = elementAt x full.dims i * elementAt x₁ full.dims i := by
    rw [elementAt, hmdims, hmentries _ (hmdims ▸ Index.under_lt hmreads.stretches hi'), elementAt, elementAt,
      Index.under_under hx (hmdims ▸ hmreads.stretches) hi', Index.under_under hx₁ (hmdims ▸ hmreads.stretches) hi']
    rfl
  rw [hentries i hi, hnvalues, List.getD_eq_getElem _ _ (by rw [List.length_map, hqlen]; exact hi'), List.getElem_map,
    ← List.getD_eq_getElem q.values 0 (hqlen.symm ▸ hi'), hqentries i hi', hmat, h₂.elementAt_map hi' hddims hdvalues]
  change -elementAt x full.dims i * elementAt x₁ full.dims i / (elementAt x₂ full.dims i * elementAt x₂ full.dims i) =
    -(elementAt x full.dims i * elementAt x₁ full.dims i / (elementAt x₂ full.dims i * elementAt x₂ full.dims i))
  rw [neg_mul, neg_div]

end Kernel

end TensorGraph
