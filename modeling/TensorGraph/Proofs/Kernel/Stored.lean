import TensorGraph.Proofs.Kernel.Stretch
import TensorGraph.Proofs.Tensor.Host

/-!
Ops on stored tensors, and what writing over an operand has to do with them. Stored elements are seen as cells, so that a
move of elements is told once for all widths. A tensor is valid if it passes the check
for data from outside: then its elements are as many as its extents say, of the width that its type asks for. Main
statement: an op that runs over its first operand fails exactly where it fails beside it, and else gives the same
tensor. Beside it the strides of the first operand are computed too, so they must fit words where a function of two
elements writes over it.
-/
namespace TensorGraph

namespace Storage

@[simp] theorem length_toDoubles (s : Storage) : s.toDoubles.length = s.length := by
  cases s <;> simp [toDoubles, length]

@[simp] theorem length_ofDoubles (k : StorageKind) (v : List Double) : (ofDoubles k v).length = v.length := by
  cases k <;> simp [ofDoubles, length]

@[simp] theorem kind_ofDoubles (k : StorageKind) (v : List Double) : (ofDoubles k v).kind = k := by
  cases k <;> rfl

end Storage

/-! ## Cells -/

/-- An element in the width that it is held in. -/
inductive Cell where
  | f32 (value : Single)
  | i32 (value : Int32)
  | i64 (value : Int64)

/-- A double rounded to an element of the given width. -/
def Cell.ofDouble (k : StorageKind) (x : Double) : Cell :=
  match k with
  | .f32 => .f32 x.toSingle
  | .i32 => .i32 x.toFloat.toInt32
  | .i64 => .i64 x.toFloat.toInt64

namespace Storage

variable {s t : Storage} {fill : Double} {sources : List (Option Nat)}

/-- The elements, one by one. -/
def cells : Storage → List Cell
  | f32 v => v.map .f32
  | i32 v => v.map .i32
  | i64 v => v.map .i64

@[simp] theorem length_cells (s : Storage) : s.cells.length = s.length := by
  cases s <;> exact List.length_map _

theorem injective_f32 : Function.Injective Cell.f32 := fun _ _ => Cell.f32.inj

theorem injective_i32 : Function.Injective Cell.i32 := fun _ _ => Cell.i32.inj

theorem injective_i64 : Function.Injective Cell.i64 := fun _ _ => Cell.i64.inj

/-- Elements are taken as cells are picked. -/
theorem take_eq_ok : s.take fill sources = .ok t ↔
    t.kind = s.kind ∧ pick s.cells (.ofDouble s.kind fill) sources = .ok t.cells := by
  have hstep : ∀ {α : Type} {x : List α} {v : α} {f : List α → Storage} {g : α → Cell} {k : StorageKind},
      Function.Injective g → (∀ y, (f y).kind = k ∧ (f y).cells = y.map g) → (∀ r : Storage, r.kind = k → ∃ y, r = f y) →
      ((do return f (← pick x v sources) : Outcome Storage) = .ok t ↔
        t.kind = k ∧ pick (x.map g) (g v) sources = .ok t.cells) := by
    intro α x v f g k hg hf hall
    rw [Outcome.bind_eq_ok]
    constructor
    · rintro ⟨y, hy, h⟩
      cases h
      exact ⟨(hf y).1, by rw [(hf y).2, pick_map hg]; exact hy⟩
    · rintro ⟨hkind, hpick⟩
      obtain ⟨y, rfl⟩ := hall t hkind
      rw [(hf y).2, pick_map hg] at hpick
      exact ⟨y, hpick, rfl⟩
  cases s with
  | f32 v => exact hstep injective_f32 (fun _ => ⟨rfl, rfl⟩) fun r hr => by cases r <;> first | exact ⟨_, rfl⟩ | cases hr
  | i32 v => exact hstep injective_i32 (fun _ => ⟨rfl, rfl⟩) fun r hr => by cases r <;> first | exact ⟨_, rfl⟩ | cases hr
  | i64 v => exact hstep injective_i64 (fun _ => ⟨rfl, rfl⟩) fun r hr => by cases r <;> first | exact ⟨_, rfl⟩ | cases hr

/-- Every source that there is can be taken. -/
theorem take_total (h : ∀ j, some j ∈ sources → j < s.length) : ∃ t, s.take fill sources = .ok t := by
  have hlt : ∀ {α : Type} {x : List α} {v : α}, x.length = s.length → ∃ y, pick x v sources = .ok y := fun hlen =>
    pick_total fun j hj => hlen ▸ h j hj
  cases s with
  | f32 v =>
    obtain ⟨y, hy⟩ := @hlt _ v fill.toSingle rfl
    exact ⟨.f32 y, Outcome.bind_eq_ok.2 ⟨y, hy, rfl⟩⟩
  | i32 v =>
    obtain ⟨y, hy⟩ := @hlt _ v fill.toFloat.toInt32 rfl
    exact ⟨.i32 y, Outcome.bind_eq_ok.2 ⟨y, hy, rfl⟩⟩
  | i64 v =>
    obtain ⟨y, hy⟩ := @hlt _ v fill.toFloat.toInt64 rfl
    exact ⟨.i64 y, Outcome.bind_eq_ok.2 ⟨y, hy, rfl⟩⟩

/-- Storages of one width are put one behind the other. -/
theorem append_total (h : s.kind = t.kind) :
    ∃ r, s.append t = .ok r ∧ r.kind = s.kind ∧ r.cells = s.cells ++ t.cells := by
  cases s <;> cases t <;> first | exact ⟨_, rfl, rfl, List.map_append⟩ | cases h

theorem append_error (h : s.kind ≠ t.kind) : s.append t = .execution .storageKinds := by
  cases s <;> cases t <;> first | rfl | exact absurd rfl h

end Storage

namespace HostTensor

variable {v : HostTensor}

/-- What the check for data from outside asks for. -/
theorem checked_iff : v.Checked ↔ v.info.counted = .ok v.data.length ∧ v.data.kind = v.info.dtype.storage := by
  constructor
  · intro h
    obtain ⟨n, hn, -⟩ := Outcome.bind_eq_ok.1 h
    obtain ⟨-, hlen, hkind⟩ := ofStorage_ok h.eq
    exact ⟨hn.trans (congrArg _ ((TensorInfo.counted_eq hn).trans hlen.symm)), hkind⟩
  · rintro ⟨hcounted, hkind⟩
    rw [Checked, ofStorage, hcounted]
    change (if v.data.length ≠ v.data.length then _ else _) = _
    rw [if_neg (not_not.2 rfl), if_neg (by simp [Storage.fits, hkind])]
    rfl

theorem Checked.counted (h : v.Checked) : v.info.counted = .ok v.data.length := (checked_iff.1 h).1

theorem Checked.kind (h : v.Checked) : v.data.kind = v.info.dtype.storage := (checked_iff.1 h).2

end HostTensor

namespace Backend

open Kernel

variable {kind : OpKind} {inputs : List HostTensor} {output : TensorInfo} {y : HostTensor}

/-! ## Runs -/

/-- A run follows the plan of the op, and what it gives has as many elements as was asked for. -/
theorem run_eq_ok : run kind inputs output = .ok y ↔
    output.counted = .ok y.data.length ∧ ∃ p, plan kind (inputs.map operand) output = .ok p ∧
      runPlan inputs output p = .ok y := by
  constructor
  · intro h
    obtain ⟨p, hp, h⟩ := Outcome.bind_eq_ok.1 h
    obtain ⟨result, hresult, h⟩ := Outcome.bind_eq_ok.1 h
    obtain ⟨n, hn, h⟩ := Outcome.bind_eq_ok.1 h
    split at h
    · cases h
    · rename_i hlen
      cases h
      exact ⟨hn.trans (congrArg _ (not_not.1 hlen).symm), p, hp, hresult⟩
  · rintro ⟨hcounted, p, hp, hy⟩
    refine Outcome.bind_eq_ok.2 ⟨p, hp, Outcome.bind_eq_ok.2 ⟨y, hy, Outcome.bind_eq_ok.2 ⟨_, hcounted, ?_⟩⟩⟩
    rw [if_neg (not_not.2 rfl)]
    rfl

/-- New values are rounded to the width of the result. -/
theorem runPlan_values {values : List Double} : runPlan inputs output (.values values) = .ok y ↔
    output.counted = .ok values.length ∧ y = ⟨output, .ofDoubles output.dtype.storage values⟩ := by
  constructor
  · intro h
    obtain ⟨result, hresult, h⟩ := Outcome.bind_eq_ok.1 h
    cases h
    obtain ⟨n, hn, hresult⟩ := Outcome.bind_eq_ok.1 hresult
    split at hresult
    · cases hresult
    · rename_i hlen
      cases hresult
      exact ⟨hn.trans (congrArg _ (not_not.1 hlen).symm), rfl⟩
  · rintro ⟨hcounted, rfl⟩
    exact Outcome.bind_eq_ok.2 ⟨values, finish_eq hcounted, rfl⟩

/-- An op that computes its values. -/
theorem run_values (computed : Outcome (List Double))
    (hplan : plan kind (inputs.map operand) output = (do return .values (← computed))) :
    run kind inputs output = .ok y ↔ ∃ values, computed = .ok values ∧ output.counted = .ok values.length ∧
      y = ⟨output, .ofDoubles output.dtype.storage values⟩ := by
  rw [run_eq_ok, hplan]
  constructor
  · rintro ⟨-, p, hp, hy⟩
    obtain ⟨values, hvalues, hp⟩ := Outcome.bind_eq_ok.1 hp
    cases hp
    exact ⟨values, hvalues, runPlan_values.1 hy⟩
  · rintro ⟨values, rfl, hcounted, rfl⟩
    exact ⟨by rwa [Storage.length_ofDoubles], _, rfl, runPlan_values.2 ⟨hcounted, rfl⟩⟩

/-! ## Pools -/

/-- Operands of one width, one behind the other. -/
theorem pooled_total {pool : List Nat} {parts : List HostTensor} {k : StorageKind}
    (hpool : pool.mapM (inputs[·]?) = some parts) (hne : parts ≠ []) (hkind : ∀ t ∈ parts, t.data.kind = k) :
    ∃ s, pooled inputs pool = .ok s ∧ s.kind = k ∧ s.cells = (parts.map (·.data.cells)).flatten := by
  have hfold : ∀ {pool : List Nat} {parts : List HostTensor} (front : Storage), pool.mapM (inputs[·]?) = some parts →
      (∀ t ∈ parts, t.data.kind = k) → front.kind = k →
        ∃ s, pool.foldlM (fun s j => do s.append (← Outcome.promised inputs[j]?).data) front = .ok s ∧ s.kind = k ∧
          s.cells = front.cells ++ (parts.map (·.data.cells)).flatten := by
    intro pool
    induction pool with
    | nil =>
      intro parts front hpool _ hfront
      cases hpool
      exact ⟨front, rfl, hfront, (List.append_nil _).symm⟩
    | cons i pool ih =>
      intro parts front hpool hkind hfront
      obtain ⟨x, rest, hx, hrest, rfl⟩ := List.forall₂_cons_left_iff.1 (mapM_eq_some_iff.1 hpool)
      obtain ⟨r, hr, hrkind, hrcells⟩ := Storage.append_total (hfront.trans (hkind x List.mem_cons_self).symm)
      obtain ⟨s, hs, hskind, hscells⟩ := ih r (mapM_eq_some_iff.2 hrest)
        (fun t ht => hkind t (List.mem_cons_of_mem x ht)) (hrkind.trans hfront)
      refine ⟨s, ?_, hskind, by rw [hscells, hrcells, List.map_cons, List.flatten_cons, List.append_assoc]⟩
      rw [List.foldlM_cons, hx]
      change (front.append x.data >>= _) = _
      rw [hr]
      exact hs
  match pool, hpool with
  | [], hpool =>
    cases hpool
    exact absurd rfl hne
  | i :: pool, hpool =>
    obtain ⟨x, rest, hx, hrest, rfl⟩ := List.forall₂_cons_left_iff.1 (mapM_eq_some_iff.1 hpool)
    obtain ⟨s, hs, hskind, hscells⟩ := hfold x.data (mapM_eq_some_iff.2 hrest)
      (fun t ht => hkind t (List.mem_cons_of_mem x ht)) (hkind x List.mem_cons_self)
    refine ⟨s, ?_, hskind, by rw [hscells, List.map_cons, List.flatten_cons]⟩
    rw [pooled, hx]
    exact hs

/-! ## Writing over an operand -/

section Pairs

variable {R : Type} [Scalar R] {f : R → R → R} {a b : Operand R} {values : List R}

/-- The values of an operand beside one that has all the elements of the result. -/
def besides (b : Operand R) (dims : List Nat) : Outcome (List R) := do
  let sources ← Index.broadcastSources b.dims dims
  Storage.pick b.values 0 (sources.map some)

omit [Scalar R] in
theorem mapM_range_eq_ok [Zero R] {g : Nat → Outcome R} {n : Nat} :
    (List.range n).mapM g = .ok values ↔ values.length = n ∧ ∀ i < n, g i = .ok (values.getD i 0) := by
  rw [Outcome.mapM_eq_ok, List.forall₂_iff_get]
  constructor
  · rintro ⟨hlen, hall⟩
    rw [List.length_range] at hlen
    refine ⟨hlen.symm, fun i hi => ?_⟩
    have h := hall i (by simpa using hi) (hlen ▸ hi)
    rwa [List.get_eq_getElem, List.getElem_range, List.get_eq_getElem, ← List.getD_eq_getElem values 0] at h
  · rintro ⟨rfl, hall⟩
    refine ⟨List.length_range, fun i hi hi' => ?_⟩
    rw [List.get_eq_getElem, List.getElem_range, List.get_eq_getElem, ← List.getD_eq_getElem values 0]
    exact hall i hi'

omit [Scalar R] in
theorem pick_some_eq_ok [Zero R] {x y : List R} {sources : List Nat} :
    Storage.pick x 0 (sources.map some) = .ok y ↔
      y.length = sources.length ∧ ∀ i < sources.length, x[sources.getD i 0]? = some (y.getD i 0) := by
  rw [Storage.pick, Outcome.mapM_eq_ok, List.forall₂_map_left_iff, List.forall₂_iff_get]
  constructor
  · rintro ⟨hlen, hall⟩
    refine ⟨hlen.symm, fun i hi => ?_⟩
    have h := hall i hi (hlen ▸ hi)
    simp only [List.get_eq_getElem, Outcome.orFail_eq_ok, List.getElem?_toArray] at h
    rw [List.getD_eq_getElem _ _ hi, List.getD_eq_getElem]
    exact h
  · rintro ⟨hlen, hall⟩
    refine ⟨hlen.symm, fun i hi hi' => ?_⟩
    have h := hall i hi
    rw [List.getD_eq_getElem _ _ hi, List.getD_eq_getElem _ _ hi'] at h
    simp only [List.get_eq_getElem, Outcome.orFail_eq_ok, List.getElem?_toArray]
    exact h

theorem length_besides {partners : List R} {dims : List Nat} (h : besides b dims = .ok partners) :
    partners.length = volume dims := by
  obtain ⟨sources, hsources, h⟩ := Outcome.bind_eq_ok.1 h
  rw [(pick_some_eq_ok.1 h).1, (Index.broadcastSources_ok hsources).2, List.length_map, List.length_range]

omit [Scalar R] in
theorem getD_zipWith [Zero R] {x y : List R} {i : Nat} (hlen : y.length = x.length) (hi : i < x.length) :
    (List.zipWith f x y).getD i 0 = f (x.getD i 0) (y.getD i 0) := by
  rw [List.getD_eq_getElem _ _ (by rwa [List.length_zipWith, hlen, Nat.min_self]), List.getElem_zipWith,
    List.getD_eq_getElem _ _ hi, List.getD_eq_getElem _ _ (hlen ▸ hi)]

theorem besides_eq_ok {sources : List Nat} {partners : List R} {dims : List Nat}
    (hb : Index.broadcastSources b.dims dims = .ok sources) : besides b dims = .ok partners ↔
      partners.length = sources.length ∧ ∀ i < sources.length, b.values[sources.getD i 0]? = some (partners.getD i 0) := by
  rw [besides, hb]
  exact pick_some_eq_ok

omit [Scalar R] in
/-- An operand of the shape of the result is read element by element. -/
theorem broadcastSources_own (hdims : a.dims = output.dims) (hcounted : output.counted = .ok a.values.length)
    (hsteps : ∃ s, Index.steps output.dims = .ok s) :
    Index.broadcastSources a.dims output.dims = .ok (List.range a.values.length) := by
  obtain ⟨s, hs⟩ := hsteps
  have hvolume : a.values.length = volume output.dims := Word.product_eq hcounted
  have htotal := Index.broadcastSources_total (.refl output.dims) hs
  rw [hdims, htotal, Index.broadcastSources_self htotal, hvolume]

theorem elementwise_pair_eq_ok {sources : List Nat} (hcounted : output.counted = .ok a.values.length)
    (ha : Index.broadcastSources a.dims output.dims = .ok (List.range a.values.length))
    (hb : Index.broadcastSources b.dims output.dims = .ok sources) (hlen : sources.length = a.values.length) :
    elementwise (onPair f) [a, b] output = .ok values ↔ values.length = a.values.length ∧
      ∀ i < a.values.length, ∃ y, b.values[sources.getD i 0]? = some y ∧ values.getD i 0 = f (a.values.getD i 0) y := by
  rw [elementwise_eq, zipWith, List.mapM_cons, List.mapM_cons, ha, hb]
  change (Word.product output.dims >>= _) = _ ↔ _
  rw [show Word.product output.dims = .ok a.values.length from hcounted]
  refine mapM_range_eq_ok.trans (and_congr_right fun _ => forall₂_congr fun i hi => ?_)
  have hi' : i < sources.length := hlen.symm ▸ hi
  simp only [bind_assoc, pure_bind, List.mapM_nil, List.mapM_cons, List.reverse_nil, onPair, Operand.fetch,
    List.getElem?_toArray, Outcome.bind_eq_ok, Outcome.promised_eq_ok, List.getElem?_range hi,
    List.getElem?_eq_getElem hi', Option.some.injEq, exists_eq_left', List.getElem?_eq_getElem hi,
    List.getD_eq_getElem _ _ hi, List.getD_eq_getElem _ _ hi']
  exact exists_congr fun y => and_congr_right fun _ => ⟨fun h => (Except.ok.inj h).symm, fun h => congrArg _ h.symm⟩

/-- A function of two elements, with the first operand of the shape of the result: its elements meet those that the
other operand is read at. -/
theorem elementwise_besides (hdims : a.dims = output.dims) (hcounted : output.counted = .ok a.values.length)
    (hsteps : ∃ s, Index.steps output.dims = .ok s) :
    elementwise (onPair f) [a, b] output = .ok values ↔
      ∃ partners, besides b output.dims = .ok partners ∧ values = List.zipWith f a.values partners := by
  have hsame := broadcastSources_own hdims hcounted hsteps
  -- Both sides read the other operand at its sources, and fail if one of them is not there.
  cases hb : Index.broadcastSources b.dims output.dims with
  | error e =>
    have hleft : elementwise (onPair f) [a, b] output = .error e := by
      rw [elementwise_eq, zipWith, List.mapM_cons, List.mapM_cons, hsame, hb]
      rfl
    have hright : besides b output.dims = .error e := by
      rw [besides, hb]
      rfl
    rw [hleft, hright]
    exact ⟨nofun, fun ⟨_, h, _⟩ => nomatch h⟩
  | ok sources =>
    have hvolume : a.values.length = volume output.dims := Word.product_eq hcounted
    have hlen : sources.length = a.values.length := by
      rw [(Index.broadcastSources_ok hb).2, List.length_map, List.length_range, hvolume]
    rw [elementwise_pair_eq_ok hcounted hsame hb hlen]
    simp only [besides_eq_ok hb, hlen]
    constructor
    · rintro ⟨hlength, hall⟩
      choose! partner hpartner hvalue using hall
      have hpartners : ∀ i < a.values.length, ((List.range a.values.length).map partner).getD i 0 = partner i :=
        fun i hi => by simp [List.getD_eq_getElem?_getD, hi]
      refine ⟨(List.range a.values.length).map partner, ⟨by simp, fun i hi => ?_⟩, ?_⟩
      · rw [hpartners i hi]
        exact hpartner i hi
      · refine eq_of_getD (by simp [hlength]) fun i hi => ?_
        have hi : i < a.values.length := hlength ▸ hi
        rw [hvalue i hi, ← hpartners i hi, getD_zipWith (by simp) hi]
    · rintro ⟨partners, ⟨hlength, hall⟩, rfl⟩
      exact ⟨by rw [List.length_zipWith, hlength, Nat.min_self], fun i hi =>
        ⟨partners.getD i 0, hall i hi, getD_zipWith hlength hi⟩⟩

omit [Scalar R] in
/-- The strides of all operands are computed. -/
theorem steps_of_elementwise {φ : List R → R} {operands : List (Operand R)}
    (h : elementwise φ (a :: operands) output = .ok values) : ∃ s, Index.steps a.dims = .ok s := by
  obtain ⟨sources, hsources, -⟩ := Outcome.bind_eq_ok.1 h
  rw [List.mapM_cons] at hsources
  obtain ⟨_, hfirst, -⟩ := Outcome.bind_eq_ok.1 hsources
  obtain ⟨indices, hindices, -⟩ := Outcome.bind_eq_ok.1 hfirst
  unfold Index.broadcastSources at hindices
  split at hindices
  · cases hindices
  · obtain ⟨s, hs, -⟩ := Outcome.bind_eq_ok.1 hindices
    exact ⟨s, hs⟩

end Pairs

variable {target : HostTensor} {shared : Bool} {rest : List HostTensor}

theorem runInPlace_beside (h : target.info ≠ output ∨ overwriting kind target rest = .ok none) :
    runInPlace kind target shared rest output = run kind (target :: rest) output := by
  unfold runInPlace
  by_cases hinfo : target.info = output
  · rw [if_neg (not_not.2 hinfo), h.resolve_left (not_not.2 hinfo)]
    rfl
  · rw [if_pos hinfo]

/-- What is written over a valid tensor has its info and the width of its elements. -/
theorem runInPlace_over {values : List Double} {write : List Double → Outcome (List Double)}
    (hwrite : overwriting kind target rest = .ok (some write)) (hvalues : write target.data.toDoubles = .ok values)
    (hrun : run kind (target :: rest) target.info = .ok ⟨target.info, .ofDoubles target.data.kind values⟩) :
    runInPlace kind target shared rest target.info = run kind (target :: rest) target.info := by
  unfold runInPlace
  rw [if_neg (not_not.2 rfl), hwrite]
  cases shared with
  | true => rfl
  | false =>
    rw [hrun]
    exact Outcome.bind_eq_ok.2 ⟨_, rfl, Outcome.bind_eq_ok.2 ⟨values, hvalues, rfl⟩⟩

/-- Storage that is shared stays as it is. -/
theorem run_of_shared (h : runInPlace kind target true rest output = .ok y) : run kind (target :: rest) output = .ok y := by
  unfold runInPlace at h
  split at h
  · exact h
  · obtain ⟨write, -, h⟩ := Outcome.bind_eq_ok.1 h
    cases write <;> exact h

/-- Where operands cannot be read, an op fails over its first operand and beside it. -/
theorem runInPlace_refused {e e' : Failure} (hover : overwriting kind target rest = .error e)
    (hplan : plan kind ((target :: rest).map operand) target.info = .error e') (y : HostTensor) :
    runInPlace kind target shared rest target.info = .ok y ↔ run kind (target :: rest) target.info = .ok y := by
  unfold runInPlace run
  rw [if_neg (not_not.2 rfl), hover, hplan]
  exact ⟨nofun, nofun⟩

theorem counted_operand (h : target.Checked) : target.info.counted = .ok (operand target).values.length := by
  rw [operand, Storage.length_toDoubles]
  exact h.counted

theorem runInPlace_unary {f : Unary} (hvalid : target.Checked) :
    runInPlace (.unary f) target shared [] target.info = run (.unary f) [target] target.info := by
  have hrun : run (.unary f) [target] target.info =
      .ok ⟨target.info, .ofDoubles target.data.kind (target.data.toDoubles.map f.apply)⟩ := by
    rw [hvalid.kind, run_values (.ok (target.data.toDoubles.map f.apply)) rfl]
    refine ⟨_, rfl, ?_, rfl⟩
    rw [List.length_map]
    exact counted_operand hvalid
  have hwrite : overwriting (.unary f) target [] = .ok (some fun values => .ok (values.map f.apply)) := rfl
  exact runInPlace_over hwrite rfl hrun

theorem runInPlace_binary {f : Binary} {other : HostTensor} (hvalid : target.Checked)
    (hsteps : ∃ s, Index.steps target.info.dims = .ok s) (y : HostTensor) :
    runInPlace (.binary f) target shared [other] target.info = .ok y ↔
      run (.binary f) [target, other] target.info = .ok y := by
  have hbinary : plan (.binary f) ([target, other].map operand) target.info =
      (do return .values (← elementwise (onPair f.apply) [operand target, operand other] target.info)) := rfl
  have hcompute : ∀ values, elementwise (onPair f.apply) [operand target, operand other] target.info = .ok values ↔
      ∃ partners, besides (operand other) target.info.dims = .ok partners ∧
        values = List.zipWith f.apply target.data.toDoubles partners :=
    fun _ => elementwise_besides rfl (counted_operand hvalid) hsteps
  cases hb : besides (operand other) target.info.dims with
  | error e =>
    have hover : overwriting (.binary f) target [other] = .error e := Outcome.bind_eq_error.2 (.inl hb)
    cases hvalues : elementwise (onPair f.apply) [operand target, operand other] target.info with
    | error e' => exact runInPlace_refused hover (hbinary.trans (by rw [hvalues]; rfl)) y
    | ok values =>
      obtain ⟨partners, hpartners, -⟩ := (hcompute values).1 hvalues
      cases hb.symm.trans hpartners
  | ok partners =>
    have hwrite : overwriting (.binary f) target [other] = .ok (some fun values =>
        if partners.length < values.length then .error .abort else .ok (List.zipWith f.apply values partners)) :=
      Outcome.bind_eq_ok.2 ⟨partners, hb, rfl⟩
    have hsame : (operand target).values.length = partners.length :=
      (Word.product_eq (counted_operand hvalid)).trans (length_besides hb).symm
    have hrun : run (.binary f) [target, other] target.info =
        .ok ⟨target.info, .ofDoubles target.data.kind (List.zipWith f.apply target.data.toDoubles partners)⟩ := by
      rw [hvalid.kind, run_values _ hbinary]
      have hresult : (List.zipWith f.apply target.data.toDoubles partners).length = (operand target).values.length := by
        rw [List.length_zipWith]
        exact Nat.min_eq_left (Nat.le_of_eq hsame)
      exact ⟨_, (hcompute _).2 ⟨partners, hb, rfl⟩, hresult ▸ counted_operand hvalid, rfl⟩
    rw [runInPlace_over hwrite (if_neg (Nat.not_lt.2 (Nat.le_of_eq hsame))) hrun]

/-- Over its first operand or beside it, an op gives the same tensor, or fails. -/
theorem runInPlace_eq_ok (hvalid : target.Checked) (hsteps : ∀ f, kind = .binary f → target.info = output → shared = false →
    ∃ s, Index.steps target.info.dims = .ok s) (y : HostTensor) :
    runInPlace kind target shared rest output = .ok y ↔ run kind (target :: rest) output = .ok y := by
  by_cases hinfo : target.info = output
  swap
  · rw [runInPlace_beside (.inl hinfo)]
  subst hinfo
  -- an arity that the op does not have is refused on both sides
  cases kind with
  | unary f =>
    cases rest with
    | cons other rest => exact runInPlace_refused rfl rfl y
    | nil => rw [runInPlace_unary hvalid]
  | binary f =>
    match rest with
    | [] => exact runInPlace_refused rfl rfl y
    | _ :: _ :: _ => exact runInPlace_refused rfl rfl y
    | [other] =>
      by_cases hfits : ∃ s, Index.steps target.info.dims = .ok s
      · exact runInPlace_binary hvalid hfits y
      · have hshared : shared = true := by
          by_contra hfalse
          exact hfits (hsteps f rfl rfl (Bool.not_eq_true _ ▸ hfalse))
        subst hshared
        refine ⟨run_of_shared, fun hrun => ?_⟩
        obtain ⟨values, hvalues, -⟩ := (run_values (elementwise (onPair f.apply) [operand target, operand other]
          target.info) rfl).1 hrun
        exact absurd (steps_of_elementwise hvalues) hfits
  | _ => rw [runInPlace_beside (.inr rfl)]

/-- In place the reference backend gives what it gives otherwise, also where the storage is shared, and fails where it
fails otherwise. -/
theorem reference_inPlace (name : String) (hvalid : target.Checked) (hsteps : ∀ f, kind = .binary f →
    target.info = output → shared = false → ∃ s, Index.steps target.info.dims = .ok s) (y : HostTensor) :
    (reference name).executeInPlace kind target shared rest output = .ok y ↔
      (reference name).execute kind (target :: rest) [output] = .ok [y] := by
  change runInPlace kind target shared rest output = .ok y ↔ (do return [← run kind (target :: rest) output]) = Except.ok [y]
  rw [runInPlace_eq_ok hvalid hsteps, Outcome.bind_eq_ok]
  constructor
  · exact fun h => ⟨y, h, rfl⟩
  · rintro ⟨y', h, hy⟩
    rwa [List.singleton_inj.1 (Except.ok.inj hy)] at h

/-- A column, and a whole number to add to both of its elements. -/
def sampleColumn : HostTensor := ⟨⟨.float, [2, 1]⟩, .f32 [.one, .zero]⟩

def sampleWhole : HostTensor := ⟨⟨.int64, []⟩, .i64 [1]⟩

/-- The whole number is read as a double for each element. -/
theorem reference_inPlace_column :
    (reference "cpu").executeInPlace (.binary .add) sampleColumn false [sampleWhole] sampleColumn.info =
      .ok ⟨sampleColumn.info, .ofDoubles .f32
        (List.zipWith (· + ·) sampleColumn.data.toDoubles (sampleWhole.data.toDoubles ++ sampleWhole.data.toDoubles))⟩ := by
  have hvalid : sampleColumn.Checked := rfl
  have hsteps : ∀ f, OpKind.binary .add = .binary f → sampleColumn.info = sampleColumn.info → false = false →
      ∃ s, Index.steps sampleColumn.info.dims = .ok s := fun _ _ _ _ => ⟨[1, 1], rfl⟩
  exact (reference_inPlace "cpu" hvalid hsteps _).2 rfl

/-- A tensor without elements, whose extents still do not multiply to a word. -/
def vastTarget : HostTensor := ⟨⟨.float, [0, 1099511627776, 1099511627776]⟩, .f32 []⟩

/-- Beside a valid operand an op can abort where it succeeds over it: only beside it are the strides of the operand
computed. -/
theorem inPlace_vast : vastTarget.Checked ∧
    (reference "cpu").executeInPlace (.binary .add) vastTarget false [.ofSingle .one] vastTarget.info = .ok vastTarget ∧
      (reference "cpu").execute (.binary .add) [vastTarget, .ofSingle .one] [vastTarget.info] = .error .abort :=
  ⟨rfl, rfl, rfl⟩

end Backend

end TensorGraph
