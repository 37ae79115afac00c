import TensorGraph.Proofs.Gradient.Degree
import TensorGraph.Proofs.Kernel.Exact

/-!
Kernels and a scaling of their operands. If all operands of degree one are scaled, the result of an op is scaled if it
is of degree one itself, and stays the same if not. The same holds of failures, for any function on numbers that goes
with the arithmetic as the multiplication with a number does that is not zero.
-/
namespace TensorGraph

/-! ## Scaled operands -/

section Operands

variable {R : Type}

/-- A number of the given degree, scaled. -/
def scaledBy (σ : R → R) (d : Bool) (x : R) : R := if d then σ x else x

/-- The operand with all values scaled. -/
def Operand.map (σ : R → R) (x : Operand R) : Operand R := ⟨x.info, x.values.map σ⟩

/-- An operand of the given degree, scaled. -/
def Operand.scaled (σ : R → R) (d : Bool) (x : Operand R) : Operand R := x.map (scaledBy σ d)

@[simp] theorem Operand.map_info (σ : R → R) (x : Operand R) : (x.map σ).info = x.info := rfl

@[simp] theorem Operand.map_values (σ : R → R) (x : Operand R) : (x.map σ).values = x.values.map σ := rfl

@[simp] theorem Operand.map_dims (σ : R → R) (x : Operand R) : (x.map σ).dims = x.dims := rfl

@[simp] theorem Operand.scaled_false (σ : R → R) (x : Operand R) : x.scaled σ false = x := by
  have hid : scaledBy σ false = id := rfl
  rw [Operand.scaled, hid, Operand.map, List.map_id]

@[simp] theorem Operand.scaled_true (σ : R → R) (x : Operand R) : x.scaled σ true = x.map σ := rfl

/-- One function for all elements. -/
theorem zipWith_same {κ α β : Type} {F : κ → α → β} {k : κ} : ∀ {ks : List κ} {l : List α}, (∀ k' ∈ ks, k' = k) →
    ks.length = l.length → List.zipWith F ks l = l.map (F k)
  | [], [], _, _ => rfl
  | k' :: ks, a :: l, hks, hlen => by
    rw [List.zipWith_cons_cons, hks k' List.mem_cons_self, List.map_cons,
      zipWith_same (fun k' hk' => hks k' (List.mem_cons_of_mem _ hk')) (Nat.succ.inj hlen)]

/-- Nothing is scaled. -/
theorem zipWith_scaled_false (σ : R → R) {ds : List Bool} (h : ∀ d ∈ ds, d = false) {xs : List (Operand R)}
    (hlen : ds.length = xs.length) : List.zipWith (Operand.scaled σ) ds xs = xs := by
  have hid : Operand.scaled σ false = id := funext (Operand.scaled_false σ)
  rw [zipWith_same h hlen, hid, List.map_id]

theorem Operand.only_map (σ : R → R) (x : Operand R) (rest : List (Operand R)) :
    Operand.only (x.map σ :: rest) = Operand.map σ <$> Operand.only (x :: rest) := by
  cases rest <;> rfl

theorem Operand.pair_map (σ : R → R) (x : Operand R) : ∀ rest : List (Operand R),
    Operand.pair (x.map σ :: rest) = (fun p => (p.1.map σ, p.2)) <$> Operand.pair (x :: rest)
  | [] => rfl
  | [_] => rfl
  | _ :: _ :: _ => rfl

theorem Operand.first_map (σ : R → R) (x : Operand R) : (x.map σ).first = σ <$> x.first := by
  rw [Operand.first, Operand.first, map_values, List.head?_map, map_info]
  cases x.values.head? <;> rfl

theorem Operand.fetch_map (σ : R → R) (values : List R) (i : Nat) :
    Operand.fetch (values.map σ).toArray i = σ <$> Operand.fetch values.toArray i := by
  simp only [Operand.fetch, List.getElem?_toArray, List.getElem?_map]
  cases values[i]? <;> rfl

end Operands

namespace Outcome

variable {α β γ κ : Type}

/-- A function that is applied to all results. -/
theorem mapM_map_comm {F F' : α → Outcome β} {φ : β → β} (h : ∀ a, F' a = φ <$> F a) :
    ∀ l : List α, l.mapM F' = List.map φ <$> l.mapM F
  | [] => rfl
  | a :: l => by
    rw [List.mapM_cons, List.mapM_cons, h a, mapM_map_comm h l]
    simp [bind_map_left, map_bind]

/-- Functions that are applied to all elements before and to all results after. -/
theorem mapM_zipWith_comm {F : α → Outcome β} {H : κ → α → α} {K : κ → β → β} (h : ∀ k a, F (H k a) = K k <$> F a) :
    ∀ (ks : List κ) (l : List α), ks.length = l.length →
      (List.zipWith H ks l).mapM F = List.zipWith K ks <$> l.mapM F
  | [], [], _ => rfl
  | k :: ks, a :: l, hlen => by
    rw [List.zipWith_cons_cons, List.mapM_cons, List.mapM_cons, h, mapM_zipWith_comm h ks l (Nat.succ.inj hlen)]
    simp [bind_map_left, map_bind]

theorem foldlM_map_comm {f f' : β → α → Outcome β} {φ : β → β} (h : ∀ b a, f' (φ b) a = φ <$> f b a) :
    ∀ (l : List α) (b : β), l.foldlM f' (φ b) = φ <$> l.foldlM f b
  | [], _ => rfl
  | a :: l, b => by
    rw [List.foldlM_cons, List.foldlM_cons, h, bind_map_left, map_bind]
    exact bind_congr fun b' => foldlM_map_comm h l b'

/-- Only what follows a success matters. -/
theorem bind_congr_ok {x : Outcome α} {f g : α → Outcome β} (h : ∀ a, x = .ok a → f a = g a) :
    (x >>= f) = (x >>= g) := by
  cases x with
  | error e => rfl
  | ok a => exact h a rfl

end Outcome

/-! ## Scalings -/

variable {R : Type} [Scalar R]

/-- A function on numbers that goes with the arithmetic as a multiplication does. -/
structure Scaling (σ : R → R) : Prop where
  zero : σ 0 = 0
  sumStart : σ Scalar.sumStart = Scalar.sumStart
  fill : σ (Scalar.ofSingle .zero) = Scalar.ofSingle .zero
  neg : ∀ x, -σ x = σ (-x)
  add : ∀ x y, σ x + σ y = σ (x + y)
  sub : ∀ x y, σ x - σ y = σ (x - y)
  mul_left : ∀ x y, σ x * y = σ (x * y)
  mul_right : ∀ x y, x * σ y = σ (x * y)
  div_left : ∀ x y, σ x / y = σ (x / y)
  div_cancel : ∀ x y, σ x / σ y = x / y
  isZero : ∀ x, Scalar.isZero (σ x) = Scalar.isZero x

namespace Kernel

variable {σ : R → R}

/-! ## Sums -/

theorem accumulate_map (h : Scaling σ) (n : Nat) (targets : List Nat) (values : List R) :
    accumulate n (targets.zip (values.map σ)) = (accumulate n (targets.zip values)).map σ := by
  have hfold : ∀ (j : Nat) (l : List (Nat × R)) (total : R),
      (l.map fun c => (c.1, σ c.2)).foldl (fun total c => if c.1 = j then total + c.2 else total) (σ total) =
        σ (l.foldl (fun total c => if c.1 = j then total + c.2 else total) total) := by
    intro j l
    induction l with
    | nil => exact fun _ => rfl
    | cons c l ih =>
      intro total
      rw [List.map_cons, List.foldl_cons, List.foldl_cons]
      simp only
      split
      · rw [h.add]
        exact ih _
      · exact ih _
  have hzip : targets.zip (values.map σ) = (targets.zip values).map fun c => (c.1, σ c.2) := by
    rw [List.zip_map_right]
    rfl
  rw [accumulate, accumulate, List.map_map, hzip]
  refine List.map_congr_left fun j _ => ?_
  have htotal := hfold j (targets.zip values) 0
  rwa [h.zero] at htotal

theorem reduceTo_map (h : Scaling σ) (values : List R) (source target : List Nat) :
    reduceTo (values.map σ) source target = List.map σ <$> reduceTo values source target := by
  simp only [reduceTo, map_bind, map_pure, accumulate_map h]

theorem sum_map (h : Scaling σ) (l : List R) : Scalar.sum (l.map σ) = σ (Scalar.sum l) := by
  have hfold : ∀ (l : List R) (total : R), (l.map σ).foldl (· + ·) (σ total) = σ (l.foldl (· + ·) total) := by
    intro l
    induction l with
    | nil => exact fun _ => rfl
    | cons a l ih =>
      intro total
      rw [List.map_cons, List.foldl_cons, List.foldl_cons, h.add]
      exact ih _
  rw [Scalar.sum, Scalar.sum, ← hfold l, h.sumStart]

/-! ## Elementwise ops -/

omit [Scalar R] in
/-- A function of elements that takes degrees to a degree is applied to operands of these degrees. -/
theorem zipWith_scaled {ds : List Bool} {φ : List R → R} {d : Bool}
    (hφ : ∀ args : List R, args.length = ds.length → φ (List.zipWith (scaledBy σ) ds args) = scaledBy σ d (φ args))
    {xs : List (Operand R)} (hlen : ds.length = xs.length) (dims : List Nat) :
    zipWith φ (List.zipWith (Operand.scaled σ) ds xs) dims = List.map (scaledBy σ d) <$> zipWith φ xs dims := by
  have hsource : ∀ (d : Bool) (x : Operand R), (do
      let indices ← Index.broadcastSources (x.scaled σ d).dims dims
      return ((x.scaled σ d).values.toArray, indices.toArray) : Outcome (Array R × Array Nat)) =
      (fun s => (s.1.map (scaledBy σ d), s.2)) <$> (do
        let indices ← Index.broadcastSources x.dims dims
        return (x.values.toArray, indices.toArray) : Outcome (Array R × Array Nat)) := by
    intro d x
    simp [Operand.scaled]
  have hfetch : ∀ (i : Nat) (d : Bool) (s : Array R × Array Nat),
      (do Operand.fetch (s.1.map (scaledBy σ d)) (← Outcome.promised s.2[i]?) : Outcome R) =
        scaledBy σ d <$> (do Operand.fetch s.1 (← Outcome.promised s.2[i]?) : Outcome R) := by
    intro i d s
    rw [map_bind]
    refine bind_congr fun index => ?_
    rw [Operand.fetch, Operand.fetch, Array.getElem?_map]
    cases s.1[index]? <;> rfl
  unfold zipWith
  rw [Outcome.mapM_zipWith_comm hsource ds xs hlen, bind_map_left, map_bind]
  refine Outcome.bind_congr_ok fun sources hsources => ?_
  rw [map_bind]
  refine bind_congr fun n => Outcome.mapM_map_comm (fun i => ?_) _
  have hlen' : ds.length = sources.length := hlen.trans (Outcome.mapM_eq_ok.1 hsources).length_eq
  rw [Outcome.mapM_zipWith_comm (hfetch i) ds sources hlen', bind_map_left, map_bind]
  refine Outcome.bind_congr_ok fun args hargs => ?_
  rw [hφ args ((Outcome.mapM_eq_ok.1 hargs).length_eq.symm.trans hlen'.symm)]
  rfl

omit [Scalar R] in
/-- A function that is linear in its first argument. -/
theorem zipWith_first {φ : List R → R} (hφ : ∀ a args, φ (σ a :: args) = σ (φ (a :: args))) (x : Operand R)
    (rest : List (Operand R)) (dims : List Nat) :
    zipWith φ (x.map σ :: rest) dims = List.map σ <$> zipWith φ (x :: rest) dims := by
  have hlength : (true :: List.replicate rest.length false).length = (x :: rest).length := by simp
  have hscaled := zipWith_scaled (σ := σ) (d := true) (φ := φ) (fun args hlen => ?_) hlength dims
  · rwa [List.zipWith_cons_cons, zipWith_scaled_false σ (fun d hd => List.eq_of_mem_replicate hd) (by simp)] at hscaled
  · cases args with
    | nil => cases hlen
    | cons a args =>
      have hid : scaledBy σ false = id := rfl
      rw [List.zipWith_cons_cons, zipWith_same (fun d hd => List.eq_of_mem_replicate hd) (Nat.succ.inj hlen).symm, hid,
        List.map_id]
      exact hφ a args

theorem onPair_first (h : Scaling σ) {f : R → R → R} (hf : ∀ a b, f (σ a) b = σ (f a b)) :
    ∀ a args, onPair f (σ a :: args) = σ (onPair f (a :: args))
  | _, [] => h.zero.symm
  | a, [b] => hf a b
  | _, _ :: _ :: _ => h.zero.symm

theorem unaryGrad_first (h : Scaling σ) (f : UnaryGrad) (g y : R) : f.apply (σ g) y = σ (f.apply g y) := by
  cases f with
  | sqrt => exact h.div_left _ _
  | reciprocal => rw [UnaryGrad.apply, h.neg, h.div_left]; rfl
  | exp | tanh => exact h.mul_left _ _
  | sigmoid => rw [UnaryGrad.apply, h.mul_left, h.mul_left]; rfl
  | relu | clip low high =>
    simp only [UnaryGrad.apply]
    split
    · rfl
    · exact h.zero.symm

theorem operandGrad_first (h : Scaling σ) : ∀ (f : OperandGrad) (a : R) (args : List R),
    f.apply (σ a :: args) = σ (f.apply (a :: args))
  | .subRight, a, [] => h.neg a
  | .mul, a, [b] => h.mul_left a b
  | .divLeft, a, [b] => h.div_left a b
  | .divRight, a, [b, c] => by
    simp only [OperandGrad.apply]
    rw [h.neg, h.mul_left, h.div_left]
  | .subRight, _, _ :: _ | .mul, _, [] | .mul, _, _ :: _ :: _ | .divLeft, _, [] | .divLeft, _, _ :: _ :: _
  | .divRight, _, [] | .divRight, _, [_] | .divRight, _, _ :: _ :: _ :: _ => h.zero.symm

theorem operandGrad_map (h : Scaling σ) (f : OperandGrad) (x : Operand R) (rest : List (Operand R))
    (output : TensorInfo) : operandGrad f (x.map σ :: rest) output = List.map σ <$> operandGrad f (x :: rest) output := by
  simp only [operandGrad, Operand.requireCount, List.length_cons, List.foldlM_cons, Operand.map_info, map_bind]
  refine bind_congr fun _ => bind_congr fun full => ?_
  rw [zipWith_first (operandGrad_first h f), bind_map_left]
  exact bind_congr fun values => reduceTo_map h values _ _

/-! ## Lanes and matrices -/

omit [Scalar R] in
theorem overLanes_map {f f' : Nat → Nat → Nat → Outcome R} (h : ∀ o k i, f' o k i = σ <$> f o k i) (l : Index.Lanes)
    (held : Nat) : overLanes l held f' = List.map σ <$> overLanes l held f := by
  unfold overLanes
  split
  · rfl
  · exact Outcome.mapM_map_comm (fun (a : Nat × Nat × Nat) => h a.1 a.2.1 a.2.2) _

theorem fit_map (h : Scaling σ) (n : Nat) (values : List R) :
    Operand.fit n (values.map σ) = (Operand.fit n values).map σ := by
  rw [Operand.fit, Operand.fit, List.map_take, List.map_append, List.map_replicate, List.length_map, h.zero]

theorem softmaxGrad_first (h : Scaling σ) (axis : Int) (x y : Operand R) :
    softmaxGrad axis (x.map σ) y = List.map σ <$> softmaxGrad axis x y := by
  unfold softmaxGrad
  rw [map_bind]
  refine bind_congr fun l => ?_
  simp only [Operand.map_values, List.size_toArray, List.length_map]
  rw [overLanes_map (f := fun o k i => do
    let products ← (List.range l.extent).mapM fun j => do
      return (← Operand.fetch x.values.toArray (l.index o j i)) * (← Operand.fetch y.values.toArray (l.index o j i))
    return (← Operand.fetch y.values.toArray (l.index o k i)) *
      ((← Operand.fetch x.values.toArray (l.index o k i)) - Scalar.sum products)), bind_map_left, map_bind]
  · exact bind_congr fun result => congrArg Except.ok (fit_map h _ result)
  · intro o k i
    rw [Outcome.mapM_map_comm (φ := σ) (F := fun j => do
      return (← Operand.fetch x.values.toArray (l.index o j i)) * (← Operand.fetch y.values.toArray (l.index o j i)))]
    · simp only [Operand.fetch_map, bind_map_left, map_bind, map_pure, sum_map h, h.sub, h.mul_right]
    · intro j
      simp only [Operand.fetch_map, bind_map_left, map_bind, map_pure, h.mul_left]

theorem matMul_first (h : Scaling σ) (a b : Operand R) : matMul (a.map σ) b = List.map σ <$> matMul a b := by
  unfold matMul
  rw [Operand.map_dims]
  split
  · split
    · rfl
    · simp only [map_bind, Operand.map_values, List.size_toArray, List.length_map]
      refine bind_congr fun _ => bind_congr fun _ => ?_
      split
      · rfl
      · refine Outcome.mapM_map_comm (fun cell => ?_) _
        conv_lhs => rw [← h.zero]
        refine Outcome.foldlM_map_comm (fun total j => ?_) _ _
        rw [Operand.fetch_map, bind_map_left, map_bind]
        refine bind_congr fun x => ?_
        rw [h.isZero]
        split
        · rfl
        · simp only [map_bind, map_pure, h.mul_left, h.add]
  · rfl

theorem matMul_second (h : Scaling σ) (a b : Operand R) : matMul a (b.map σ) = List.map σ <$> matMul a b := by
  unfold matMul
  rw [Operand.map_dims]
  split
  · split
    · rfl
    · simp only [map_bind, Operand.map_values]
      refine bind_congr fun _ => bind_congr fun _ => ?_
      split
      · rfl
      · refine Outcome.mapM_map_comm (fun cell => ?_) _
        conv_lhs => rw [← h.zero]
        refine Outcome.foldlM_map_comm (fun total j => ?_) _ _
        rw [map_bind]
        refine bind_congr fun x => ?_
        split
        · rfl
        · simp only [Operand.fetch_map, bind_map_left, map_bind, map_pure, h.mul_right, h.add]
  · rfl

/-! ## Gradients of moves and of losses -/

theorem gatherGrad_first (h : Scaling σ) (axis : Int) (x indices : Operand R) (output : TensorInfo) :
    gatherGrad axis (x.map σ) indices output = List.map σ <$> gatherGrad axis x indices output := by
  simp only [gatherGrad, map_bind, Operand.map_values, List.length_map, Operand.map_info]
  refine bind_congr fun _ => bind_congr fun _ => bind_congr fun _ => bind_congr fun _ => ?_
  split
  · rfl
  · simp only [map_bind, map_pure, accumulate_map h]

theorem scatterDataGrad_first (h : Scaling σ) (axis : Int) (x indices : Operand R) :
    scatterDataGrad axis (x.map σ) indices = List.map σ <$> scatterDataGrad axis x indices := by
  simp only [scatterDataGrad, map_bind, Operand.map_values, List.length_map, Operand.map_dims, map_pure]
  refine bind_congr fun targets => bind_congr fun _ => congrArg Except.ok ?_
  rw [List.zipIdx_map, List.map_map, List.map_map]
  refine List.map_congr_left fun e _ => ?_
  change (if targets.contains e.2 then 0 else σ e.1) = σ (if targets.contains e.2 then 0 else e.1)
  split
  · exact h.zero.symm
  · rfl

theorem scatterUpdatesGrad_first (axis : Int) (x indices : Operand R) :
    scatterUpdatesGrad axis (x.map σ) indices = List.map σ <$> scatterUpdatesGrad axis x indices := by
  simp only [scatterUpdatesGrad, map_bind, Operand.map_values, Operand.map_dims]
  exact bind_congr fun targets => Outcome.mapM_map_comm (fun t => Operand.fetch_map σ _ t) _

theorem nllGrad_seed (h : Scaling σ) (r : Reduction) (ignored : Option Int) (probs labels seed : Operand R) :
    nllGrad r ignored probs labels (seed.map σ) = List.map σ <$> nllGrad r ignored probs labels seed := by
  simp only [nllGrad, map_bind, Operand.first_map, bind_map_left, map_pure]
  refine bind_congr fun _ => bind_congr fun s => bind_congr fun _ => congrArg Except.ok ?_
  rw [List.map_map]
  refine List.map_congr_left fun e _ => ?_
  simp only [Function.comp_apply]
  split
  · rw [h.mul_left, h.neg, h.div_left]
  · exact h.zero.symm

theorem l1Grad_seed (h : Scaling σ) (lambda : Single) (r : Reduction) (x seed : Operand R) :
    l1Grad lambda r x (seed.map σ) = List.map σ <$> l1Grad lambda r x seed := by
  simp only [l1Grad, map_bind, Operand.first_map, bind_map_left, map_pure, List.map_map]
  refine bind_congr fun s => congrArg Except.ok (List.map_congr_left fun v _ => ?_)
  simp only [Function.comp_apply]
  rw [h.mul_right, h.mul_left, h.mul_right]

/-- The scaling of the gradient is taken out again. -/
theorem sgdStep_scaled (h : Scaling σ) (weight gradient rate decay scaling : Operand R) :
    sgdStep weight (gradient.map σ) rate decay (scaling.map σ) = sgdStep weight gradient rate decay scaling := by
  simp only [sgdStep, Operand.first_map, bind_map_left, Operand.map_values, List.length_map, Operand.map_info,
    List.zipWith_map_right, h.div_cancel]

/-! ## Plans -/

/-- A plan for scaled operands. -/
def Plan.map (σ : R → R) : Plan R → Plan R
  | .relabel => .relabel
  | .move pool fill sources => .move pool fill sources
  | .values result => .values (result.map σ)

/-- A plan that moves no elements but those of the first operand, and fills up with zeros. -/
def Plan.Leads : Plan R → Prop
  | .move pool fill _ => pool = [0] ∧ fill = .zero
  | _ => True

omit [Scalar R] in
theorem finish_map (σ : R → R) (output : TensorInfo) (result : List R) :
    finish output (result.map σ) = List.map σ <$> finish output result := by
  simp only [finish, map_bind, List.length_map]
  refine bind_congr fun n => ?_
  split <;> rfl

theorem pick_map (h : Scaling σ) (data : List R) (sources : Sources) :
    Storage.pick (data.map σ) (Scalar.ofSingle .zero) sources =
      List.map σ <$> Storage.pick data (Scalar.ofSingle .zero) sources := by
  refine Outcome.mapM_map_comm (fun source => ?_) sources
  cases source with
  | none => exact congrArg Except.ok h.fill.symm
  | some i =>
    simp only [List.getElem?_toArray, List.getElem?_map, List.size_toArray, List.length_map]
    cases data[i]? <;> rfl

theorem Plan.read_map (h : Scaling σ) {p : Plan R} (hp : p.Leads) (x : Operand R) (rest : List (Operand R))
    (output : TensorInfo) : (p.map σ).read (x.map σ :: rest) output = List.map σ <$> p.read (x :: rest) output := by
  cases p with
  | relabel => rfl
  | move pool fill sources =>
    obtain ⟨rfl, rfl⟩ := hp
    have hdata : ∀ y : Operand R, (([0] : List Nat).mapM fun i => do
        return (← Outcome.promised (y :: rest)[i]?).values) = (.ok [y.values] : Outcome (List (List R))) :=
      fun y => rfl
    simp only [map, read, hdata]
    change (sources >>= _) = _ <$> (sources >>= _)
    rw [map_bind]
    refine bind_congr fun l => ?_
    simp only [List.flatten_cons, List.flatten_nil, List.append_nil]
    exact pick_map h _ l
  | values result => exact finish_map σ output result

/-- Kinds that are linear in the first operand move no other elements. -/
theorem plan_leads {kind : OpKind} (hkind : kind.isLinear = true) {inputs : List (Operand R)} {output : TensorInfo}
    {p : Plan R} (hp : plan kind inputs output = .ok p) : p.Leads := by
  -- a plan is the last thing that is made
  have hlast : ∀ {α : Type} {o : Outcome α} {f : α → Outcome (Plan R)}, (∀ a q, f a = .ok q → q.Leads) →
      ∀ q, (o >>= f) = .ok q → q.Leads := by
    intro α o f hf q hq
    obtain ⟨a, -, hq⟩ := Outcome.bind_eq_ok.1 hq
    exact hf a q hq
  have hvalues : ∀ (result : List R) q, (pure (.values result) : Outcome (Plan R)) = .ok q → q.Leads := by
    rintro result q ⟨⟩
    trivial
  have hmove : ∀ (sources : Sources) q, (pure (.move [0] .zero (.ok sources)) : Outcome (Plan R)) = .ok q → q.Leads := by
    rintro sources q ⟨⟩
    exact ⟨rfl, rfl⟩
  cases kind with
  | identity | reshape =>
    refine hlast (fun y => hlast fun n q hq => ?_) p hp
    split at hq
    · cases hq
    · cases hq
      trivial
  | matMul | softmaxGrad | gatherGrad | scatterDataGrad | scatterUpdatesGrad =>
    exact hlast (fun _ => hlast hvalues) p hp
  | reduceToShape => exact hlast (fun _ => hlast hvalues) p hp
  | unaryGrad | binary => exact hlast (fun _ => hlast hvalues) p hp
  | operandGrad => exact hlast hvalues p hp
  | unary => exact hlast (fun _ => hvalues _) p hp
  | transpose | slice | reduceSumGrad => exact hlast (fun _ => hlast hmove) p hp
  | pad pads value =>
    obtain rfl : value = .zero := of_decide_eq_true hkind
    exact hlast (fun _ => hlast hmove) p hp
  | _ => cases hkind

/-- A kind that is linear in the first operand. -/
theorem plan_first (h : Scaling σ) {kind : OpKind} (hkind : kind.isLinear = true) (x : Operand R)
    (rest : List (Operand R)) (output : TensorInfo) :
    plan kind (x.map σ :: rest) output = Plan.map σ <$> plan kind (x :: rest) output := by
  -- values that are scaled, after checks that stay
  have hvalues : ∀ {o o' : Outcome (List R)}, o' = List.map σ <$> o →
      (o' >>= fun r => pure (.values r) : Outcome (Plan R)) = Plan.map σ <$> (o >>= fun r => pure (.values r)) := by
    rintro o _ rfl
    rw [bind_map_left, map_bind]
    rfl
  have hmoves : ∀ o : Outcome Sources, (o >>= fun l => pure (.move [0] .zero (.ok l)) : Outcome (Plan R)) =
      Plan.map σ <$> (o >>= fun l => pure (.move [0] .zero (.ok l))) := by
    intro o
    rw [map_bind]
    rfl
  have honly : ∀ {k : Operand R → Outcome (Plan R)}, (∀ y, k (y.map σ) = Plan.map σ <$> k y) →
      (Operand.only (x.map σ :: rest) >>= k) = Plan.map σ <$> (Operand.only (x :: rest) >>= k) := by
    intro k hk
    rw [Operand.only_map, bind_map_left, map_bind]
    exact bind_congr hk
  have hpair : ∀ {k : Operand R × Operand R → Outcome (Plan R)}, (∀ y z, k (y.map σ, z) = Plan.map σ <$> k (y, z)) →
      (Operand.pair (x.map σ :: rest) >>= k) = Plan.map σ <$> (Operand.pair (x :: rest) >>= k) := by
    intro k hk
    rw [Operand.pair_map, bind_map_left, map_bind]
    exact bind_congr fun y => hk y.1 y.2
  have hcount : ∀ {n : Nat} {o o' : Outcome (Plan R)}, o' = Plan.map σ <$> o →
      (Operand.requireCount n (x.map σ :: rest) >>= fun _ => o') =
        Plan.map σ <$> (Operand.requireCount n (x :: rest) >>= fun _ => o) := by
    rintro n o _ rfl
    rw [map_bind]
    rfl
  cases kind with
  | identity | reshape =>
    refine honly fun y => ?_
    rw [map_bind, Operand.map_values, List.length_map]
    refine bind_congr fun n => ?_
    split <;> rfl
  | unary f =>
    refine honly fun y => congrArg (fun l => Except.ok (Plan.values l)) ?_
    rw [Operand.map_values, List.map_map, List.map_map]
    refine List.map_congr_left fun v _ => ?_
    cases f with
    | neg => exact h.neg v
    | scale factor => exact h.mul_left v _
    | _ => cases hkind
  | binary f =>
    refine hcount (hvalues (zipWith_first (onPair_first h fun a b => ?_) x rest _))
    cases f with
    | mul => exact h.mul_left a b
    | div => exact h.div_left a b
    | _ => cases hkind
  | unaryGrad f => exact hcount (hvalues (zipWith_first (onPair_first h (unaryGrad_first h f)) x rest _))
  | operandGrad f => exact hvalues (operandGrad_map h f x rest output)
  | matMul => exact hpair fun y z => hvalues (matMul_first h y z)
  | softmaxGrad axis => exact hpair fun y z => hvalues (softmaxGrad_first h axis y z)
  | gatherGrad axis => exact hpair fun y z => hvalues (gatherGrad_first h axis y z output)
  | scatterDataGrad axis => exact hpair fun y z => hvalues (scatterDataGrad_first h axis y z)
  | scatterUpdatesGrad axis => exact hpair fun y z => hvalues (scatterUpdatesGrad_first axis y z)
  | reduceToShape => exact honly fun y => hvalues (reduceTo_map h _ _ _)
  | transpose | slice | reduceSumGrad => exact honly fun y => hmoves _
  | pad pads value =>
    obtain rfl : value = .zero := of_decide_eq_true hkind
    exact honly fun y => hmoves _
  | _ => cases hkind

/-- What the result of a plan becomes. -/
theorem exact_of_read {φ : R → R} {kind : OpKind} {xs xs' : List (Operand R)} {output : TensorInfo}
    (hread : (do (← plan kind xs' output).read xs' output : Outcome (List R)) =
      List.map φ <$> (do (← plan kind xs output).read xs output : Outcome (List R))) :
    exact kind xs' output = Operand.map φ <$> exact kind xs output := by
  have hexact : ∀ xs : List (Operand R), exact kind xs output =
      ((do (← plan kind xs output).read xs output : Outcome (List R)) >>= fun values => do
        if values.length ≠ (← output.counted) then
          .execution (.producedElements kind.typeName values.length output)
        else return ⟨output, values⟩) := fun xs => by rw [exact, bind_assoc]
  rw [hexact, hexact, hread, bind_map_left, map_bind]
  refine bind_congr fun values => ?_
  rw [map_bind]
  refine bind_congr fun n => ?_
  rw [List.length_map]
  split <;> rfl

/-- An op whose operands are scaled by their degrees gives the result scaled by its degree. -/
theorem exact_graded (h : Scaling σ) {kind : OpKind} {ds : List Bool} {d : Bool} (hd : kind.Graded ds d)
    {xs : List (Operand R)} (hlen : ds.length = xs.length) (output : TensorInfo) :
    exact kind (List.zipWith (Operand.scaled σ) ds xs) output = Operand.scaled σ d <$> exact kind xs output := by
  -- an op that gives values which its kernel scales
  have hvalues : ∀ {d : Bool} {xs xs' : List (Operand R)} {o o' : Outcome (List R)},
      plan kind xs output = (o >>= fun r => pure (.values r)) → plan kind xs' output = (o' >>= fun r => pure (.values r)) →
      o' = List.map (scaledBy σ d) <$> o → exact kind xs' output = Operand.scaled σ d <$> exact kind xs output := by
    intro d xs xs' o o' hxs hxs' ho
    refine exact_of_read ?_
    rw [hxs, hxs', ho, bind_map_left, bind_assoc, bind_assoc, map_bind]
    exact bind_congr fun r => finish_map (scaledBy σ d) output r
  cases hd with
  | fixed hds =>
    have hid : Operand.scaled σ false = id := funext (Operand.scaled_false σ)
    rw [zipWith_scaled_false σ hds hlen, hid, id_map]
  | first hkind hds =>
    match xs, hlen with
    | x :: rest, hlen =>
      rw [List.zipWith_cons_cons, zipWith_scaled_false σ hds (Nat.succ.inj hlen), Operand.scaled_true]
      refine exact_of_read ?_
      rw [plan_first h hkind, bind_map_left, map_bind]
      exact Outcome.bind_congr_ok fun p hp => Plan.read_map h (plan_leads hkind hp) x rest output
  | second =>
    match xs, hlen with
    | [a, b], _ =>
      simp only [List.zipWith_cons_cons, List.zipWith_nil_left, Operand.scaled_false, Operand.scaled_true]
      exact hvalues rfl rfl (matMul_second h a b)
  | sum hne hds =>
    match xs, hlen with
    | [], hlen => exact absurd (List.length_eq_zero_iff.1 hlen) hne
    | x :: rest, hlen =>
      have hall := zipWith_scaled (σ := σ) (d := true) (φ := Scalar.sum) (fun args hargs => ?_) hlen output.dims
      · rw [zipWith_same hds hlen] at hall ⊢
        exact hvalues rfl rfl hall
      · rw [zipWith_same hds hargs.symm]
        exact sum_map h args
  | nll reduction ignored =>
    match xs, hlen with
    | [probs, labels, seed], _ =>
      simp only [List.zipWith_cons_cons, List.zipWith_nil_left, Operand.scaled_false, Operand.scaled_true]
      exact hvalues rfl rfl (nllGrad_seed h reduction ignored probs labels seed)
  | l1 lambda reduction =>
    match xs, hlen with
    | [x, seed], _ =>
      simp only [List.zipWith_cons_cons, List.zipWith_nil_left, Operand.scaled_false, Operand.scaled_true]
      exact hvalues rfl rfl (l1Grad_seed h lambda reduction x seed)
  | update =>
    match xs, hlen with
    | [weight, gradient, rate, decay, scaling], _ =>
      have hid : List.map (scaledBy σ false) = id := funext List.map_id
      simp only [List.zipWith_cons_cons, List.zipWith_nil_left, Operand.scaled_false, Operand.scaled_true]
      refine hvalues rfl rfl ?_
      rw [hid, id_map]
      exact sgdStep_scaled h weight gradient rate decay scaling

end Kernel

/-! ## Fields -/

/-- Multiplication with a number that is not zero. -/
theorem scaling_mul {R : Type} [Field R] [LinearOrder R] {f : Functions R} (hzero : f.ofSingle .zero = 0) {c : R}
    (hc : c ≠ 0) : @Scaling R f.scalar (c * ·) := by
  let _ := f.scalar
  exact {
    zero := mul_zero c
    sumStart := mul_zero c
    fill := by
      change c * f.ofSingle .zero = f.ofSingle .zero
      rw [hzero, mul_zero]
    neg := fun x => (mul_neg c x).symm
    add := fun x y => (mul_add c x y).symm
    sub := fun x y => (mul_sub c x y).symm
    mul_left := fun x y => mul_assoc c x y
    mul_right := fun x y => mul_left_comm x c y
    div_left := fun x y => mul_div_assoc c x y
    div_cancel := fun x y => mul_div_mul_left x y hc
    isZero := fun x => by
      have hzero : ∀ y : R, Scalar.isZero y = decide (y = 0) := by
        intro y
        change (decide (y ≤ 0) && decide (0 ≤ y)) = decide (y = 0)
        rw [← Bool.decide_and]
        exact decide_eq_decide.2 le_antisymm_iff.symm
      rw [hzero, hzero]
      exact decide_eq_decide.2 (mul_eq_zero_iff_left hc) }

end TensorGraph
