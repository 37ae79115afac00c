import TensorGraph.Proofs.Gradient.Undo
import TensorGraph.Proofs.Model.Calls

/-!
Shape inference comes to a verdict. On operands without extents below zero, a kind that stands in models either has
a result, which has no extent below zero, or there is a fault of shapes to report, as long as no sum and no product of
extents and attributes leaves its word. A scalar passes for a tensor with one axis when axes are looked up, so the two
kinds that take a shape apart at an axis abort there: gathering from a scalar, and concatenating scalars. The same holds
of every call on a model under construction, for what a call infers is all that it can abort in.
-/
namespace TensorGraph

/-- The failure is a fault of shapes. -/
def Failure.IsShape (f : Failure) : Prop := ∃ e, f = .error (.shape e)

/-- The call ends with a value, or with a fault of shapes. -/
def Outcome.Judges {α : Type} (x : Outcome α) : Prop := ∀ f, x = .error f → f.IsShape

namespace Outcome.Judges

variable {α β : Type}

theorem ok (a : α) : Judges (.ok a) := nofun

theorem shape (e : ShapeError) : Judges (Outcome.shape e : Outcome α) := fun _ h => ⟨e, (Except.error.inj h).symm⟩

theorem of_ok {x : Outcome α} {a : α} (h : x = .ok a) : Judges x := h ▸ ok a

theorem orFail (o : Option α) (e : ShapeError) : Judges (.orFail o (.shape e)) := by
  cases o with
  | none => exact shape e
  | some a => exact ok a

theorem ite {c : Prop} [Decidable c] {x y : Outcome α} (hx : c → Judges x) (hy : ¬ c → Judges y) :
    Judges (if c then x else y) := by
  split
  · exact hx ‹_›
  · exact hy ‹_›

/-- What follows may rely on the value. -/
theorem bind {x : Outcome α} {k : α → Outcome β} (hx : Judges x) (hk : ∀ a, x = .ok a → Judges (k a)) :
    Judges (x >>= k) := by
  intro f h
  rcases bind_eq_error.1 h with h | ⟨a, ha, h⟩
  · exact hx f h
  · exact hk a ha f h

theorem mapM {k : α → Outcome β} : ∀ {l : List α}, (∀ a ∈ l, Judges (k a)) → Judges (l.mapM k)
  | [], _ => ok []
  | a :: l, hk => by
    rw [List.mapM_cons]
    exact bind (hk a List.mem_cons_self) fun _ _ =>
      bind (mapM fun b hb => hk b (List.mem_cons_of_mem a hb)) fun _ _ => ok _

/-- A verdict is not an abort. -/
theorem ne_abort {x : Outcome α} (h : Judges x) : x ≠ .error .abort := by
  intro hx
  obtain ⟨_, he⟩ := h _ hx
  cases he

theorem cases {x : Outcome α} (h : Judges x) : (∃ a, x = .ok a) ∨ ∃ e, x = .shape e := by
  cases hx : x with
  | ok a => exact .inl ⟨a, rfl⟩
  | error f =>
    obtain ⟨e, rfl⟩ := h f hx
    exact .inr ⟨e, rfl⟩

end Outcome.Judges

open Outcome

/-! ## Rules on shapes -/

namespace Shape

variable {s : Shape}

theorem broadcast_judges (a b : Shape) : Judges (a.broadcast b) := .orFail _ _

theorem axis_judges (s : Shape) (i : Int) : Judges (s.axis i) := .ite (fun _ => .shape _) fun _ => .ok _

theorem reductionAxes_judges (s : Shape) : ∀ axes, Judges (s.reductionAxes axes)
  | none => .ok _
  | some _ => .bind (.mapM fun i _ => axis_judges s i) fun _ _ => .ok _

theorem clampPosition_total {extent : Int} (h : 0 ≤ extent) (position : Int) : ∃ n, clampPosition extent position = .ok n :=
  ⟨_, if_neg (Int.not_lt.2 h)⟩

theorem sliceRange_judges (h : s.Sized) (start stop i : Int) : Judges (s.sliceRange start stop i) := by
  refine .ite (fun _ => .shape _) fun hin => ?_
  have hlt : (fromFront i s.length).toNat < s.length := by omega
  obtain ⟨first, hfirst⟩ := clampPosition_total (h _ (List.getElem_mem hlt)) start
  obtain ⟨last, hlast⟩ := clampPosition_total (h _ (List.getElem_mem hlt)) stop
  refine .bind (.of_ok (promised_eq_ok.2 (List.getElem?_eq_getElem hlt))) fun extent hextent => ?_
  rw [promised_eq_ok, List.getElem?_eq_getElem hlt, Option.some.injEq] at hextent
  subst hextent
  exact .bind (.of_ok hfirst) fun _ _ => .bind (.of_ok hlast) fun _ _ => .ok _

theorem sliceRanges_judges (h : s.Sized) (starts stops axes : List Int) : Judges (s.sliceRanges starts stops axes) :=
  .ite (fun _ => .shape _) fun _ => .mapM fun _ _ => sliceRange_judges h _ _ _

end Shape

namespace OpKind

variable {kind : OpKind} {infos : List TensorInfo} {s : Shape}

theorem operand1_judges (op : String) : ∀ l, Judges (operand1 op l)
  | [_] => .ok _
  | [] | _ :: _ :: _ => .shape _

theorem operand2_judges (op : String) : ∀ l, Judges (operand2 op l)
  | [_, _] => .ok _
  | [] | [_] | _ :: _ :: _ :: _ => .shape _

theorem operand3_judges (op : String) : ∀ l, Judges (operand3 op l)
  | [_, _, _] => .ok _
  | [] | [_] | [_, _] | _ :: _ :: _ :: _ :: _ => .shape _

theorem requireInteger_judges (op what : String) (info : TensorInfo) : Judges (requireInteger op what info) :=
  .ite (fun _ => .shape _) fun _ => .ok _

theorem permAxes_judges (s : Shape) (perm : List Int) : ∀ l seen, Judges (permAxes s perm l seen)
  | [], _ => .ok _
  | _ :: rest, _ => .bind (Shape.axis_judges s _) fun _ _ =>
      .ite (fun _ => .shape _) fun _ => .bind (permAxes_judges s perm rest _) fun _ _ => .ok _

/-- Only of a scalar is there an axis number that names no extent, and a scalar has no axes to put in order. -/
theorem transposedShape_judges (s : Shape) (perm : List Int) : Judges (transposedShape s perm) := by
  refine .ite (fun _ => .shape _) fun hlen => .bind (permAxes_judges s perm _ _) fun axes haxes => .mapM fun a ha => ?_
  obtain ⟨hall, -, -⟩ := permAxes_ok haxes
  obtain ⟨p, hp, hpa⟩ := exists_of_forall₂ hall.flip a ha
  have hs : s ≠ [] := by
    rintro rfl
    rw [List.eq_nil_of_length_eq_zero (not_not.1 hlen)] at hp
    cases hp
  exact .of_ok (promised_eq_ok.2 (List.getElem?_eq_getElem (axis_ok hpa hs).2))

theorem matMulInfo_judges (a b : TensorInfo) : Judges (matMulInfo a b) := by
  unfold matMulInfo
  split
  · exact .ite (fun _ => .shape _) fun _ => .ok _
  · exact .shape _

theorem broadcastAll_judges : ∀ (rest : List TensorInfo) (first : Shape), Judges (broadcastAll first rest)
  | [], _ => .ok _
  | i :: rest, first => by
    rw [broadcastAll, List.foldlM_cons]
    exact .bind (Shape.broadcast_judges _ _) fun s _ => broadcastAll_judges rest s

/-! ## Sums and products that fit -/

/-- The extents after padding, whether they fit words or not. -/
def bordered (s : Shape) (pads : List Int) : Shape :=
  List.zipWith (· + ·) s (List.zipWith (· + ·) (pads.take s.length) (pads.drop s.length))

/-- The operands of a concatenation up to the first one that does not go with the others. -/
def fitting (first : TensorInfo) (rest : List TensorInfo) (axis : Nat) : List TensorInfo :=
  first :: rest.takeWhile (concatenable first · axis)

/-- No sum or product of extents and attributes that is taken to infer the result leaves its word. Only three kinds
take any: a reshape counts the elements on both sides, pads are added to extents, and a concatenation adds up the
extents on its axis. -/
def Counts : OpKind → List TensorInfo → Prop
  | reshape shape, [x] =>
    (∀ d ∈ shape, 0 ≤ d) → (∃ n, (x.withShape shape).counted = .ok n) ∧ ∃ n, x.counted = .ok n
  | pad pads _, [x] =>
    pads.length = 2 * x.rank → (∀ p ∈ pads, 0 ≤ p) → ∀ d ∈ bordered x.shape pads, d < Word.half
  | concat axis, first :: rest =>
    ∀ a, first.shape.axis axis = .ok a → ((fitting first rest a).map fun i => i.shape.getD a 0).sum < Word.half
  | _, _ => True

/-- The op takes the shape of a scalar apart at its axis `0`, which is none. -/
def SplitsScalar : OpKind → List TensorInfo → Prop
  | concat axis, first :: second :: _ => axis = 0 ∧ first.shape = [] ∧ second = first
  | gather axis, [data, indices] => axis = 0 ∧ data.shape = [] ∧ indices.dtype.isFloat = false
  | _, _ => False

theorem paddedShape_judges {pads : List Int} (hs : s.Sized)
    (hfits : pads.length = 2 * s.length → (∀ p ∈ pads, 0 ≤ p) → ∀ d ∈ bordered s pads, d < Word.half) :
    Judges (paddedShape s pads) := by
  refine .ite (fun _ => .shape _) fun hpads => ?_
  simp only [ne_eq, not_or, not_not, Bool.not_eq_true, List.any_eq_false, decide_eq_true_eq, Int.not_lt] at hpads
  have hsized : Shape.Sized (bordered s pads) := Shape.sized_zipWith hs (Shape.sized_zipWith
    (fun d hd => hpads.2 d (List.mem_of_mem_take hd)) fun d hd => hpads.2 d (List.mem_of_mem_drop hd))
  refine .mapM fun d hd => .of_ok (Word.int_eq_ok_iff.2 ⟨⟨?_, hfits hpads.1 hpads.2 d hd⟩, rfl⟩)
  have := hsized d hd
  omega

/-- Operands that go together have the axis if the first one has it. -/
theorem concatExtent_judges {first : TensorInfo} {a : Nat} (ha : a < first.rank) : ∀ {l : List TensorInfo} {total : Int},
    (∀ i ∈ l, i.shape.Sized) → 0 ≤ total →
      total + ((l.takeWhile (concatenable first · a)).map fun i => i.shape.getD a 0).sum < Word.half →
        Judges (concatExtent first a l total)
  | [], _, _, _, _ => .ok _
  | other :: rest, total, hl, htotal, hsum => by
    refine .ite (fun _ => .shape _) fun hgoes => ?_
    rw [Bool.not_eq_false] at hgoes
    rw [List.takeWhile_cons, if_pos hgoes, List.map_cons, List.sum_cons, ← Int.add_assoc] at hsum
    have hrank : other.rank = first.rank := by
      simp only [concatenable, Bool.and_eq_true, beq_iff_eq] at hgoes
      exact hgoes.1.1
    have hlt : a < other.shape.length := by
      rw [← hrank] at ha
      exact ha
    have hextent : 0 ≤ other.shape.getD a 0 := by
      rw [List.getD_eq_getElem _ _ hlt]
      exact hl other List.mem_cons_self _ (List.getElem_mem hlt)
    have hrest : 0 ≤ ((rest.takeWhile (concatenable first · a)).map fun i => i.shape.getD a 0).sum := by
      refine List.sum_nonneg fun d hd => ?_
      obtain ⟨i, hi, rfl⟩ := List.mem_map.1 hd
      have hsized := hl i (List.mem_cons_of_mem _ ((List.takeWhile_prefix _).subset hi))
      rw [List.getD_eq_getElem?_getD]
      cases hd : i.shape[a]? with
      | none => exact Int.le_refl 0
      | some d => exact hsized d (List.mem_of_getElem? hd)
    refine .bind (.of_ok (promised_eq_ok.2 (List.getElem?_eq_getElem hlt))) fun extent hextent' => ?_
    rw [promised_eq_ok, List.getElem?_eq_getElem hlt, Option.some.injEq, ← List.getD_eq_getElem _ 0 hlt] at hextent'
    subst hextent'
    refine .bind (.of_ok (Word.int_eq_ok_iff.2 ⟨⟨by omega, by omega⟩, rfl⟩)) fun total' htotal' => ?_
    obtain ⟨-, rfl⟩ := Word.int_eq_ok_iff.1 htotal'
    exact concatExtent_judges ha (fun i hi => hl i (List.mem_cons_of_mem _ hi)) (by omega) hsum

/-- A scalar has the axis `0`, under that number only. -/
theorem axis_scalar {i : Int} {a : Nat} (h : Shape.axis [] i = .ok a) : i = 0 ∧ a = 0 := by
  unfold Shape.axis at h
  simp only [List.length_nil] at h
  split at h
  · cases h
  · rename_i hrange
    obtain rfl := Except.ok.inj h
    unfold Shape.fromFront at hrange ⊢
    omega

theorem concatInfo_judges {axis : Int} (hin : ∀ i ∈ infos, i.shape.Sized) (hcounts : (concat axis).Counts infos)
    (hsplit : ¬ (concat axis).SplitsScalar infos) : Judges (concatInfo axis infos) := by
  match infos, hin, hcounts, hsplit with
  | [], _, _, _ => exact .shape _
  | first :: rest, hin, hcounts, hsplit =>
    refine .bind (Shape.axis_judges _ _) fun a ha => .bind ?_ fun _ _ => .ok _
    by_cases hscalar : first.shape = []
    · -- The first other operand decides: it differs, or it is a scalar of the same type.
      cases rest with
      | nil => exact .ok _
      | cons second rest =>
        have hzero : axis = 0 ∧ a = 0 := axis_scalar (hscalar ▸ ha)
        refine .ite (fun _ => .shape _) fun hgoes => absurd ⟨hzero.1, hscalar, ?_⟩ hsplit
        rw [Bool.not_eq_false] at hgoes
        simp only [concatenable, Bool.and_eq_true, beq_iff_eq, TensorInfo.rank, hscalar, List.length_nil,
          List.length_eq_zero_iff] at hgoes
        cases first
        cases second
        simp_all
    · have hlt : a < first.rank := (axis_ok ha hscalar).2
      have hfirst : first.shape[a]?.getD 0 = first.shape.getD a 0 := (List.getD_eq_getElem?_getD ..).symm
      have hnonneg : 0 ≤ first.shape.getD a 0 := by
        rw [List.getD_eq_getElem _ _ hlt]
        exact hin first List.mem_cons_self _ (List.getElem_mem hlt)
      have hsum := hcounts a ha
      rw [fitting, List.map_cons, List.sum_cons] at hsum
      rw [hfirst]
      exact concatExtent_judges hlt (fun i hi => hin i (List.mem_cons_of_mem _ hi)) hnonneg hsum

theorem gather_judges {axis : Int} (hsplit : ¬ (gather axis).SplitsScalar infos) : Judges ((gather axis).infer infos) := by
  refine .bind (operand2_judges _ _) fun ⟨data, indices⟩ hoperands => ?_
  obtain rfl := operand2_ok hoperands
  refine .bind (requireInteger_judges _ _ _) fun _ hinteger => .bind (Shape.axis_judges data.shape _) fun a ha => ?_
  refine .bind (.of_ok (if_neg ?_)) fun _ _ => .ok _
  by_cases hscalar : data.shape = []
  · refine absurd ⟨(axis_scalar (hscalar ▸ ha)).1, hscalar, ?_⟩ hsplit
    unfold requireInteger at hinteger
    split at hinteger
    · cases hinteger
    · simp_all
  · have := (axis_ok ha hscalar).2
    omega

theorem reshape_judges {shape : List Int} (hcounts : (reshape shape).Counts infos) : Judges ((reshape shape).infer infos) := by
  refine .bind (operand1_judges _ _) fun x hx => ?_
  obtain rfl := operand1_ok hx
  refine .ite (fun _ => .shape _) fun hshape => ?_
  obtain ⟨⟨n, hn⟩, m, hm⟩ := hcounts (by simpa using hshape)
  exact .bind (.of_ok hn) fun _ _ => .bind (.of_ok hm) fun _ _ => .ite (fun _ => .shape _) fun _ => .ok _

/-- Where nothing leaves its word and no scalar is taken apart, inference comes to a verdict. -/
theorem infer_judges (hkind : kind.inModels = true) (hin : ∀ i ∈ infos, i.shape.Sized) (hcounts : kind.Counts infos)
    (hsplit : ¬ kind.SplitsScalar infos) : Judges (kind.infer infos) := by
  cases kind with
  | identity | unary _ => exact operand1_judges _ _
  | softmax axis => exact .bind (operand1_judges _ _) fun x _ => .bind (Shape.axis_judges x.shape _) fun _ _ => .ok _
  | binary f =>
    exact .bind (operand2_judges _ _) fun _ _ =>
      .ite (fun _ => .shape _) fun _ => .bind (Shape.broadcast_judges _ _) fun _ _ => .ok _
  | matMul => exact .bind (operand2_judges _ _) fun _ _ => matMulInfo_judges _ _
  | sum =>
    cases infos with
    | nil => exact .shape _
    | cons first rest => exact .bind (broadcastAll_judges _ _) fun _ _ => .ok _
  | reduceSum axes keepDims =>
    exact .bind (operand1_judges _ _) fun x _ => .bind (Shape.reductionAxes_judges x.shape _) fun _ _ => .ok _
  | reshape shape => exact reshape_judges hcounts
  | transpose perm => exact .bind (operand1_judges _ _) fun _ _ => .bind (transposedShape_judges _ _) fun _ _ => .ok _
  | slice starts ends axes =>
    refine .bind (operand1_judges _ _) fun x hx => .bind (Shape.sliceRanges_judges (hin x ?_) _ _ _) fun _ _ => .ok _
    rw [operand1_ok hx]
    exact List.mem_cons_self
  | pad pads value =>
    refine .bind (operand1_judges _ _) fun x hx => ?_
    obtain rfl := operand1_ok hx
    exact .bind (paddedShape_judges (hin x List.mem_cons_self) hcounts) fun _ _ => .ok _
  | concat axis => exact concatInfo_judges hin hcounts hsplit
  | gather axis => exact gather_judges hsplit
  | scatter axis =>
    exact .bind (operand3_judges _ _) fun x _ => .bind (requireInteger_judges _ _ _) fun _ _ =>
      .bind (Shape.axis_judges x.1.shape _) fun _ _ => .ite (fun _ => .shape _) fun _ => .ok _
  | reduceToShape | unaryGrad | softmaxGrad | operandGrad | reduceSumGrad | gatherGrad | scatterDataGrad
  | scatterUpdatesGrad | nll | l1 | nllGrad | l1Grad | sgdVarUpdate => cases hkind

/-- A scalar cannot be taken apart. -/
theorem infer_abort (hsplit : kind.SplitsScalar infos) : kind.infer infos = .error .abort := by
  unfold SplitsScalar at hsplit
  split at hsplit
  · obtain ⟨rfl, hscalar, rfl⟩ := hsplit
    simp [infer, concatInfo, Shape.axis, Shape.fromFront, hscalar, concatExtent, concatenable, TensorInfo.rank, promised,
      bind, Except.bind]
  · rename_i data indices
    obtain ⟨rfl, hscalar, hinteger⟩ := hsplit
    simp [infer, operand2, requireInteger, hinteger, Shape.axis, Shape.fromFront, hscalar, gatheredShape, bind, Except.bind]
  · cases hsplit

theorem isPrimal_of_inModels (h : kind.inModels = true) : kind.isPrimal = true := by
  cases kind <;> first | rfl | cases h

end OpKind

/-! ## Calls on models under construction -/

namespace Builder

variable {b : Builder} {source : TensorInfo} {target : List Int} {kind : OpKind} {operands : List TensorId}

/-- No tensor has an extent below zero. -/
def Sized (b : Builder) : Prop := ∀ id info, b.infos.get? id = some info → info.shape.Sized

/-- The infos of tensors that are read. -/
def Reads (b : Builder) (operands : List TensorId) (infos : List TensorInfo) : Prop :=
  List.Forall₂ (fun i info => b.infos.get? i = some info) operands infos

theorem Sized.of_reads (hb : b.Sized) {infos : List TensorInfo} (h : b.Reads operands infos) :
    ∀ i ∈ infos, i.shape.Sized := by
  intro i hi
  obtain ⟨id, -, hid⟩ := exists_of_forall₂ h.flip i hi
  exact hb id i hid

/-! ### Reshape targets -/

/-- The extents that a target leaves no doubt of can be multiplied, and the elements counted, if an extent is open. -/
def Opens (source : TensorInfo) (target : List Int) : Prop :=
  ∀ extents, openExtents source.shape target target.zipIdx false = .ok extents → none ∈ extents →
    (∃ known, Word.signedProduct (extents.map (·.getD 1)) = .ok known) ∧ ∃ n, source.counted = .ok n

theorem openExtents_judges (s : Shape) (target : List Int) : ∀ l opened, Judges (openExtents s target l opened)
  | [], _ => .ok _
  | _ :: rest, _ =>
    .ite (fun _ => .bind (.orFail _ _) fun _ _ => .bind (openExtents_judges s target rest _) fun _ _ => .ok _) fun _ =>
      .ite (fun _ => .bind (openExtents_judges s target rest _) fun _ _ => .ok _) fun _ =>
        .ite (fun _ => .bind (openExtents_judges s target rest _) fun _ _ => .ok _) fun _ => .shape _

theorem openExtents_nonneg {s : Shape} (hs : s.Sized) : ∀ {l : List (Int × Nat)} {opened : Bool} {extents : List (Option Int)},
    openExtents s target l opened = .ok extents → ∀ d ∈ extents.map (·.getD 1), 0 ≤ d
  | [], _, _, h => by
    cases h
    nofun
  | (d, i) :: rest, opened, extents, h => by
    have htail : ∀ {o : Option Int} {opened' : Bool}, 0 ≤ o.getD 1 →
        (do return o :: (← openExtents s target rest opened')) = Except.ok extents →
          ∀ d ∈ extents.map (·.getD 1), 0 ≤ d := by
      intro o opened' ho h
      obtain ⟨others, hothers, h⟩ := bind_eq_ok.1 h
      cases h
      exact List.forall_mem_cons.2 ⟨ho, openExtents_nonneg hs hothers⟩
    unfold openExtents at h
    split at h
    · obtain ⟨extent, hextent, h⟩ := bind_eq_ok.1 h
      exact htail (o := some extent) (hs extent (List.mem_of_getElem? (orFail_eq_ok.1 hextent))) h
    · split at h
      · exact htail (o := none) Int.one_nonneg h
      · split at h
        · rename_i hd
          exact htail (o := some d) (Int.le_of_lt hd) h
        · cases h

theorem signedProduct_nonneg {l : List Int} {n : Int} (h : Word.signedProduct l = .ok n) (hl : ∀ d ∈ l, 0 ≤ d) : 0 ≤ n :=
  foldlM_keeps (0 ≤ ·) (fun d hd {m m'} hm hstep => by
    obtain ⟨-, rfl⟩ := Word.int_eq_ok_iff.1 hstep
    exact Int.mul_nonneg hm (hl d hd)) Int.one_nonneg h

/-- A quotient by a positive number fits where the dividend does. -/
theorem int_tdiv {total known : Int} (ht : -(Word.half : Int) ≤ total ∧ total < Word.half) (hk : 0 < known) :
    Word.int (Int.tdiv total known) = .ok (Int.tdiv total known) := by
  refine Word.int_eq_ok_iff.2 ⟨?_, rfl⟩
  have hhalf : 0 < (Word.half : Int) := by decide
  rcases Int.le_total 0 total with h | h
  · have hle := Int.tdiv_le_self known h
    have hnonneg := Int.tdiv_nonneg h (Int.le_of_lt hk)
    omega
  · have hle := Int.tdiv_le_self known (Int.neg_nonneg.2 h)
    have hnonneg := Int.tdiv_nonneg (Int.neg_nonneg.2 h) (Int.le_of_lt hk)
    rw [Int.neg_tdiv] at hle hnonneg
    omega

theorem reshapeTarget_judges (hs : source.shape.Sized) (hopens : Opens source target) :
    Judges (reshapeTarget source target) := by
  refine .bind (openExtents_judges _ _ _ _) fun extents hextents => .ite (fun hopen => ?_) fun _ => .ok _
  obtain ⟨⟨known, hknown⟩, n, hn⟩ := hopens extents hextents (by simpa using hopen)
  have hnonneg := signedProduct_nonneg hknown (openExtents_nonneg hs hextents)
  refine .bind (.of_ok hknown) fun known' hknown' => ?_
  obtain rfl := Except.ok.inj (hknown.symm.trans hknown')
  refine .bind (.of_ok hn) fun m _ => .ite (fun _ => .shape _) fun hdivides => ?_
  refine .bind (.of_ok (int_tdiv ?_ (by omega))) fun _ _ => .ok _
  have hlimit : (Word.limit : Int) = 2 * Word.half := by decide
  have hlow := Int.le_bmod (x := m) (m := Word.limit) (by decide)
  have hhigh := Int.bmod_lt (x := m) (m := Word.limit) (by decide)
  unfold Word.toSigned
  omega

/-! ### Calls that abort nowhere -/

/-- The call does not abort from this state. -/
def Stands {α : Type} (x : BuilderM α) (b : Builder) : Prop := (x.run b).1 ≠ .error .abort

namespace Stands

variable {α β : Type}

theorem get_bind {f : Builder → BuilderM α} (h : Stands (f b) b) : Stands (get >>= f) b := h

theorem lift_bind {o : Outcome β} {f : β → BuilderM α} (ho : o ≠ .error .abort)
    (hf : ∀ a, o = .ok a → Stands (f a) b) : Stands (Stateful.lift o >>= f) b := by
  cases ho' : o with
  | error e =>
    intro h
    exact ho (ho'.trans (congrArg Except.error (Except.error.inj h)))
  | ok a => exact hf a ho'

theorem modify_bind {f : Builder → Builder} {x : BuilderM α} (h : Stands x (f b)) :
    Stands (modify f >>= fun _ => x) b := h

theorem map {x : BuilderM α} (h : Stands x b) (f : α → β) : Stands (f <$> x) b := by
  unfold Stands at h ⊢
  rw [map_eq_pure_bind, Stateful.run_bind]
  split
  · exact nofun
  · rename_i heq
    rw [heq] at h
    exact fun he => h (congrArg Except.error (Except.error.inj he))

theorem change {f : Builder → Outcome (α × Builder)} (h : f b ≠ .error .abort) : Stands (Stateful.change f) b := by
  intro hrun
  exact h (Stateful.run_change_error.1 (Prod.ext hrun rfl)).1

/-- Only inference could abort. -/
theorem addOp (hinfer : ∀ infos, b.Reads operands infos → kind.infer infos ≠ .error .abort) :
    Stands (addOp kind operands) b := by
  refine change fun h => ?_
  rcases bind_eq_error.1 h with h | ⟨infos, hinfos, h⟩
  · exact Outcome.Never.mapM (f := .abort) (fun _ => .orFail nofun) h
  · rcases bind_eq_error.1 h with h | ⟨_, -, h⟩
    · exact hinfer infos ((mapM_eq_ok.1 hinfos).imp fun _ _ hi => orFail_eq_ok.1 hi) h
    · cases h

end Stands

theorem info_ne_abort (b : Builder) (id : TensorId) : b.info id ≠ .error .abort := Never.orFail nofun

theorem constantValues_ne_abort (b : Builder) (op input : String) (id : TensorId) :
    b.constantValues op input id ≠ .error .abort := by
  refine Never.bind (info_ne_abort b id) fun _ => ?_
  split
  · exact .ok _
  · exact .fail nofun

theorem addOutput_ne_abort (b : Builder) (id : TensorId) : b.addOutput id ≠ .error .abort :=
  Never.ite (.ok _) (.fail nofun)

theorem setAttribute_ne_abort (b : Builder) (id : TensorId) (name : String) (value : Attribute) :
    b.setAttribute id name value ≠ .error .abort :=
  Never.bind (.orFail nofun) fun _ => .ok _

namespace Call

/-- The tensor that a call reshapes, and the target. -/
def target? (b : Builder) : Call → Option (TensorId × List Int)
  | reshapeTo x target => some (x, target)
  | reshape x shape => (held b shape).map fun target => (x, target)
  | _ => none

/-- No sum or product of extents and attributes that the call takes leaves its word. -/
structure Counts (b : Builder) (call : Call) : Prop where
  target : ∀ x target source, call.target? b = some (x, target) → b.infos.get? x = some source → Opens source target
  op : ∀ kind operands infos, call.origin? b = some (.op kind operands) → b.Reads operands infos → kind.Counts infos

/-- The call takes the shape of a scalar apart. -/
def SplitsScalar (b : Builder) (call : Call) : Prop :=
  ∃ kind operands infos, call = op kind operands ∧ b.Reads operands infos ∧ kind.SplitsScalar infos

end Call

/-- A reshape is inferred only for extents that the target stands for. -/
theorem Stands.reshapeTo {x : TensorId} (hb : b.Sized) (hopens : ∀ source, b.infos.get? x = some source → Opens source target)
    (hadd : ∀ shape, Call.reshaped b x target = some (.op (.reshape shape) [x]) → Stands (Builder.addOp (.reshape shape) [x]) b) :
    Stands (Builder.reshapeTo x target) b := by
  refine get_bind (lift_bind ?_ fun shape hshape => hadd shape ?_)
  · intro h
    rcases bind_eq_error.1 h with h | ⟨source, hsource, h⟩
    · exact info_ne_abort b x h
    · have hknown := orFail_eq_ok.1 hsource
      exact (reshapeTarget_judges (hb x source hknown) (hopens source hknown)).ne_abort h
  · obtain ⟨source, hsource, hshape⟩ := bind_eq_ok.1 hshape
    simp [Call.reshaped, orFail_eq_ok.1 hsource, hshape, Except.toOption]

/-- Calls that take no scalar apart do not abort where nothing leaves its word. -/
theorem Stands.call {call : Call} (hb : b.Sized) (hcall : call.Allowed) (hcounts : call.Counts b)
    (hsplit : ¬ call.SplitsScalar b) : Stands call.run b := by
  have hadd : ∀ {kind operands} (consumed : SortedSet TensorId), kind.inModels = true →
      call.origin? b = some (.op kind operands) → (∀ infos, b.Reads operands infos → ¬ kind.SplitsScalar infos) →
        Stands (Builder.addOp kind operands) { b with consumed } :=
    fun _ hkind horigin hnot => addOp fun infos hreads =>
      (OpKind.infer_judges hkind (hb.of_reads hreads) (hcounts.op _ _ _ horigin hreads) (hnot infos hreads)).ne_abort
  cases call with
  | input _ | weight _ | constant _ | pushScope _ | popScope => exact change nofun
  | op kind operands =>
    exact (hadd b.consumed hcall rfl fun infos hreads h => hsplit ⟨kind, operands, infos, rfl, hreads, h⟩).map _
  | clip x min max =>
    refine Stands.map ?_ _
    unfold Builder.clip
    split
    · exact nofun
    · exact hadd b.consumed rfl rfl fun _ _ => id
  | reshapeTo x target =>
    exact (reshapeTo hb (fun source => hcounts.target x target source rfl) fun _ horigin =>
      hadd b.consumed rfl horigin fun _ _ => id).map _
  | reshape x shape =>
    refine Stands.map (get_bind (lift_bind (constantValues_ne_abort _ _ _ _) fun target htarget => modify_bind ?_)) _
    have hheld := Adds.held_of_constantValues htarget
    refine reshapeTo (b := b.consume shape) hb (fun source => hcounts.target x target source ?_) fun _ horigin =>
      hadd _ rfl ?_ fun _ _ => id
    · simp [Call.target?, hheld]
    · simp only [Call.origin?, hheld]
      exact horigin
  | transpose x perm =>
    refine Stands.map ?_ _
    cases perm with
    | nil =>
      refine get_bind (lift_bind (info_ne_abort b x) fun info hinfo => hadd b.consumed rfl ?_ fun _ _ => id)
      simp [Call.origin?, orFail_eq_ok.1 hinfo]
    | cons p perm => exact hadd b.consumed rfl rfl fun _ _ => id
  | sliceTo x starts ends axes => exact (hadd b.consumed rfl rfl fun _ _ => id).map _
  | slice x starts ends axes =>
    refine Stands.map (get_bind (lift_bind (constantValues_ne_abort _ _ _ _) fun starts' hstarts =>
      lift_bind (constantValues_ne_abort _ _ _ _) fun ends' hends => lift_bind ?_ fun axes' haxes => modify_bind ?_)) _
    · cases axes with
      | none => exact Never.ok _
      | some a => exact Never.bind (constantValues_ne_abort _ _ _ _) fun _ => .ok _
    · have hmark : ([starts, ends] ++ axes.toList).foldl consume b =
          { b with consumed := b.consumed.insertMany ([starts, ends] ++ axes.toList) } := by
        cases axes <;> rfl
      have horigin : Call.origin? b (.slice x starts ends axes) = some (Call.sliced x starts' ends' axes') := by
        simp [Call.origin?, Adds.held_of_constantValues hstarts, Adds.held_of_constantValues hends, Adds.held_axes haxes]
      rw [hmark]
      exact hadd _ rfl horigin fun _ _ => id
  | output id => exact change (Never.bind (addOutput_ne_abort b id) fun _ => .ok _)
  | virtualGraph id _ | exclude id _ => exact change (Never.bind (setAttribute_ne_abort b id _ _) fun _ => .ok _)

/-- Calls that take a scalar apart abort. -/
theorem run_abort_of_splits {call : Call} (h : call.SplitsScalar b) : (call.run.run b).1 = .error .abort := by
  obtain ⟨kind, operands, infos, rfl, hreads, hsplit⟩ := h
  have hinfos : operands.mapM b.info = .ok infos := mapM_eq_ok.2 (hreads.imp fun _ _ hi => orFail_eq_ok.2 hi)
  have hadd : (addOp kind operands).run b = (.error .abort, b) := Stateful.run_change_error.2
    ⟨bind_eq_error.2 (.inr ⟨infos, hinfos, bind_eq_error.2 (.inl (OpKind.infer_abort hsplit))⟩), rfl⟩
  change ((some <$> addOp kind operands).run b).1 = _
  rw [map_eq_pure_bind, Stateful.run_bind_error hadd]

/-! ### Histories of calls -/

/-- The infos that the call brings along have no extent below zero. -/
def Call.Sized : Call → Prop
  | input info => info.shape.Sized
  | weight v | constant v => v.info.shape.Sized
  | _ => True

namespace Sized

variable {b' : Builder}

theorem of_infos (hb : b.Sized) (h : b'.infos = b.infos) : b'.Sized := fun id info hid => hb id info (h ▸ hid)

theorem insert (hb : b.Sized) {id : TensorId} {info : TensorInfo} (hinfo : info.shape.Sized)
    (h : b'.infos = b.infos.insert id info) : b'.Sized := by
  intro id' info' hid
  rw [h, Dict.get?_insert] at hid
  split at hid
  · cases hid
    exact hinfo
  · exact hb id' info' hid

theorem addOp (hb : b.Sized) (hkind : kind.inModels = true) (operands : List TensorId) :
    ((addOp kind operands).run b).2.Sized := by
  rcases hrun : (Builder.addOp kind operands).run b with ⟨e | id, b'⟩
  · obtain ⟨-, rfl⟩ := Stateful.run_change_error.1 hrun
    exact hb
  · rw [Builder.addOp, Stateful.run_change_ok] at hrun
    obtain ⟨infos, hinfos, hrun⟩ := bind_eq_ok.1 hrun
    obtain ⟨info, hinfer, hrun⟩ := bind_eq_ok.1 hrun
    simp only [pure, Except.pure, Except.ok.injEq, Prod.mk.injEq] at hrun
    obtain ⟨-, rfl⟩ := hrun
    have hreads : b.Reads operands infos := (mapM_eq_ok.1 hinfos).imp fun _ _ hi => orFail_eq_ok.1 hi
    exact hb.insert (OpKind.infer_sized (OpKind.isPrimal_of_inModels hkind) (hb.of_reads hreads) hinfer) rfl

theorem adds (hb : b.Sized) {x : BuilderM TensorId} {origin : Option Origin} (hx : Adds x b origin) :
    ((some <$> x).run b).2.Sized := by
  have hmap : ((some <$> x).run b).2 = (x.run b).2 := by
    rw [map_eq_pure_bind, Stateful.run_bind]
    rcases x.run b with ⟨_ | _, _⟩ <;> rfl
  rw [hmap]
  rcases hx with ⟨e, consumed, hx⟩ | ⟨kind, operands, consumed, -, hkind, hx⟩
  · rw [hx]
    exact hb.of_infos rfl
  · rw [hx]
    exact (hb.of_infos (show ({ b with consumed } : Builder).infos = b.infos from rfl)).addOp hkind operands

/-- No call makes an extent below zero. -/
theorem call (hb : b.Sized) {call : Call} (hcall : call.Allowed) (hsized : call.Sized) : (call.run.run b).2.Sized := by
  have hchange : ∀ {f : Builder → Outcome (Option TensorId × Builder)}, (∀ a b', f b = .ok (a, b') → b'.infos = b.infos) →
      ((Stateful.change f).run b).2.Sized := by
    intro f hf
    rcases hrun : (Stateful.change f).run b with ⟨e | a, b'⟩
    · obtain ⟨-, rfl⟩ := Stateful.run_change_error.1 hrun
      exact hb
    · exact hb.of_infos (hf a b' (Stateful.run_change_ok.1 hrun))
  cases call with
  | input info => exact hb.insert hsized rfl
  | weight v | constant v => exact hb.insert hsized rfl
  | op kind operands => exact hb.adds (.addOp hcall operands)
  | clip x min max => exact hb.adds (.clip x min max)
  | reshapeTo x target => exact hb.adds (.reshapeTo x target)
  | reshape x shape => exact hb.adds (.reshape x shape)
  | transpose x perm => exact hb.adds (.transpose x perm)
  | sliceTo x starts ends axes => exact hb.adds (.addOp rfl [x])
  | slice x starts ends axes => exact hb.adds (.slice x starts ends axes)
  | output id =>
    refine hchange fun a b' h => ?_
    obtain ⟨c, hc, h⟩ := bind_eq_ok.1 h
    cases h
    unfold addOutput at hc
    split at hc
    · cases hc
      rfl
    · cases hc
  | virtualGraph id v | exclude id patterns =>
    refine hchange fun a b' h => ?_
    obtain ⟨c, hc, h⟩ := bind_eq_ok.1 h
    cases h
    obtain ⟨_, -, hc⟩ := bind_eq_ok.1 hc
    cases hc
    rfl
  | pushScope scope => exact hb.of_infos rfl
  | popScope => exact hb.of_infos rfl

theorem built {name : String} {calls : List Call} (hcalls : ∀ call ∈ calls, call.Allowed ∧ call.Sized) :
    (built name calls).1.Sized := by
  have hrun : ∀ (calls : List Call) (s : Builder × List Entry), (∀ call ∈ calls, call.Allowed ∧ call.Sized) →
      s.1.Sized → (calls.foldl Call.step s).1.Sized := by
    intro calls
    induction calls with
    | nil => exact fun s _ h => h
    | cons call calls ih =>
      intro s hcalls h
      obtain ⟨hcall, hsized⟩ := hcalls call List.mem_cons_self
      exact ih _ (fun c hc => hcalls c (List.mem_cons_of_mem _ hc)) (h.call hcall hsized)
  exact hrun calls ({ name }, []) hcalls fun id info h => by simp at h

end Sized

/-- Inference gives one info without an extent below zero, or a fault of shapes, for operands without such extents and
sums and products that fit, except of a scalar that is taken apart, where it aborts. So no call on a model aborts but
one that takes a scalar apart. -/
theorem inference_total (kind : OpKind) (infos : List TensorInfo) (name : String) (calls : List Call) (call : Call) :
    (kind.inModels = true → (∀ i ∈ infos, i.shape.Sized) → kind.Counts infos →
      (kind.SplitsScalar infos → kind.infer infos = .error .abort) ∧
      (¬ kind.SplitsScalar infos →
        (∃ info, kind.infer infos = .ok info ∧ info.shape.Sized) ∨ ∃ e, kind.infer infos = .shape e)) ∧
    ((∀ c ∈ calls, c.Allowed ∧ c.Sized) → call.Allowed → call.Counts (built name calls).1 →
      ((call.run.run (built name calls).1).1 = .error .abort ↔ call.SplitsScalar (built name calls).1)) := by
  refine ⟨fun hkind hin hcounts => ⟨OpKind.infer_abort, fun hsplit => ?_⟩,
    fun hcalls hcall hcounts => ⟨fun habort => ?_, run_abort_of_splits⟩⟩
  · rcases (OpKind.infer_judges hkind hin hcounts hsplit).cases with ⟨info, hinfo⟩ | hshape
    · exact .inl ⟨info, hinfo, OpKind.infer_sized (OpKind.isPrimal_of_inModels hkind) hin hinfo⟩
    · exact .inr hshape
  · by_contra hsplit
    exact Stands.call (Sized.built hcalls) hcall hcounts hsplit habort

/-- A matrix. -/
def sampleMatrix : TensorInfo := ⟨.float, [2, 3]⟩

/-- A call that puts it twice beside itself. -/
def sampleJoin : Call := .op (.concat (-1)) ["input", "input"]

theorem sampleMatrix_counts : (OpKind.concat (-1)).Counts [sampleMatrix, sampleMatrix] := by
  intro a ha
  have haxis : sampleMatrix.shape.axis (-1) = .ok 1 := rfl
  obtain rfl := Except.ok.inj (haxis.symm.trans ha)
  decide

theorem sampleMatrix_sized : sampleMatrix.shape.Sized := by simp [sampleMatrix, Shape.Sized]

theorem sampleMatrix_reads {infos : List TensorInfo}
    (h : (built "g" [.input sampleMatrix]).1.Reads ["input", "input"] infos) : infos = [sampleMatrix, sampleMatrix] := by
  have hknown : (built "g" [.input sampleMatrix]).1.infos.get? "input" = some sampleMatrix := by decide +kernel
  obtain _ | ⟨hx, _ | ⟨hy, _ | _⟩⟩ := h
  rw [Option.some.inj (hx.symm.trans hknown), Option.some.inj (hy.symm.trans hknown)]

theorem inference_total_join :
    (∃ info, (OpKind.concat (-1)).infer [sampleMatrix, sampleMatrix] = .ok info ∧ info.shape.Sized) ∧
      (sampleJoin.run.run (built "g" [.input sampleMatrix]).1).1 ≠ .error .abort := by
  have hsplit : ¬ (OpKind.concat (-1)).SplitsScalar [sampleMatrix, sampleMatrix] := fun h => by cases h.2.1
  obtain ⟨hinfer, hrun⟩ :=
    inference_total (.concat (-1)) [sampleMatrix, sampleMatrix] "g" [.input sampleMatrix] sampleJoin
  refine ⟨?_, fun habort => ?_⟩
  · have hin : ∀ i ∈ [sampleMatrix, sampleMatrix], i.shape.Sized := by simp [sampleMatrix_sized]
    rcases (hinfer rfl hin sampleMatrix_counts).2 hsplit with h | ⟨e, h⟩
    · exact h
    · cases h
  · have hcounts : sampleJoin.Counts (built "g" [.input sampleMatrix]).1 := by
      refine ⟨nofun, fun kind operands infos horigin hreads => ?_⟩
      cases horigin
      rw [sampleMatrix_reads hreads]
      exact sampleMatrix_counts
    have hcalls : ∀ c ∈ [Call.input sampleMatrix], c.Allowed ∧ c.Sized := by
      simp [Call.Allowed, Call.Sized, sampleMatrix_sized]
    have hallowed : sampleJoin.Allowed := rfl
    obtain ⟨kind, operands, infos, hcall, hreads, h⟩ := (hrun hcalls hallowed hcounts).1 habort
    cases hcall
    rw [sampleMatrix_reads hreads] at h
    exact hsplit h

/-- A scalar passes for a tensor with one axis, but has no extent to replace. -/
theorem gather_from_scalar :
    (OpKind.gather 0).inModels = true ∧ (∀ i ∈ [(⟨.float, []⟩ : TensorInfo), ⟨.int32, [1]⟩], i.shape.Sized) ∧
      (OpKind.gather 0).Counts [⟨.float, []⟩, ⟨.int32, [1]⟩] ∧
      (OpKind.gather 0).infer [⟨.float, []⟩, ⟨.int32, [1]⟩] = .error .abort := by
  refine ⟨rfl, ?_, trivial, rfl⟩
  simp [Shape.Sized]

end Builder

end TensorGraph
