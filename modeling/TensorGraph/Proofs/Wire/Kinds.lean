import TensorGraph.Graph.Fingerprint
import TensorGraph.Proofs.Wire.Lawful

/-!
The byte format of op kinds obeys the law of a byte format: the number of the type tells the kinds apart, and behind it
stand the attributes of that kind in one order. Phases and types of tensors are variants without fields.
-/
namespace TensorGraph

instance : LawfulWire Reduction where
  Fits _ := True
  get_iff := by
    intro bytes rest r
    rw [show (Wire.get : Reader Reduction) = Wire.getEnum [.sum, .mean] from rfl,
      Wire.run_getEnum_eq_some (by decide) (by decide)]
    cases r <;> exact and_congr_left' (by decide)

instance : LawfulWire Phase where
  Fits _ := True
  get_iff := by
    intro bytes rest p
    rw [show (Wire.get : Reader Phase) = Wire.getEnum Phase.all from rfl,
      Wire.run_getEnum_eq_some (by decide) (by decide)]
    cases p <;> exact and_congr_left' (by decide)

instance : LawfulWire TensorType where
  Fits _ := True
  get_iff := by
    intro bytes rest t
    rw [show (Wire.get : Reader TensorType) = Wire.getEnum TensorType.all from rfl,
      Wire.run_getEnum_eq_some (by decide) (by decide)]
    cases t <;> exact and_congr_left' (by decide)

namespace Wire

variable {α β γ κ : Type} [Wire α] [Wire β] [Wire γ] [LawfulWire α] [LawfulWire β] [LawfulWire γ]

/-! Variants with two and with three fields. -/

theorem run_case₂_eq_some {c : α → β → κ} {bytes rest : Bytes} {k : κ} :
    (do return c (← Wire.get) (← Wire.get) : Reader κ).run bytes = some (k, rest) ↔
      ∃ a b, Fits a ∧ Fits b ∧ k = c a b ∧ bytes = put a ++ put b ++ rest := by
  simp only [run_bind_eq_some, run_pure_eq_some, LawfulWire.get_iff]
  constructor
  · rintro ⟨a, mid, ⟨ha, rfl⟩, b, last, ⟨hb, rfl⟩, rfl, rfl⟩
    exact ⟨a, b, ha, hb, rfl, (List.append_assoc _ _ _).symm⟩
  · rintro ⟨a, b, ha, hb, rfl, rfl⟩
    exact ⟨a, _, ⟨ha, List.append_assoc _ _ _⟩, b, rest, ⟨hb, rfl⟩, rfl, rfl⟩

theorem run_case₃_eq_some {c : α → β → γ → κ} {bytes rest : Bytes} {k : κ} :
    (do return c (← Wire.get) (← Wire.get) (← Wire.get) : Reader κ).run bytes = some (k, rest) ↔
      ∃ a b d, Fits a ∧ Fits b ∧ Fits d ∧ k = c a b d ∧ bytes = put a ++ put b ++ put d ++ rest := by
  simp only [run_bind_eq_some, run_pure_eq_some, LawfulWire.get_iff]
  constructor
  · rintro ⟨a, mid, ⟨ha, rfl⟩, b, last, ⟨hb, rfl⟩, d, last', ⟨hd, rfl⟩, rfl, rfl⟩
    exact ⟨a, b, d, ha, hb, hd, rfl, by simp only [List.append_assoc]⟩
  · rintro ⟨a, b, d, ha, hb, hd, rfl, rfl⟩
    exact ⟨a, _, ⟨ha, by simp only [List.append_assoc]⟩, b, _, ⟨hb, rfl⟩, d, rest, ⟨hd, rfl⟩, rfl, rfl⟩

end Wire

namespace OpKind

/-- Whether the words of the format hold the attributes. -/
def FieldsFit : OpKind → Prop
  | softmax axis | concat axis | gather axis | scatter axis | softmaxGrad axis | scatterDataGrad axis
  | scatterUpdatesGrad axis => Fits axis
  | reduceSum axes _ => Fits axes
  | reshape shape | reduceToShape shape | operandGrad _ shape => Fits shape
  | transpose perm => Fits perm
  | slice starts ends axes => Fits starts ∧ Fits ends ∧ Fits axes
  | pad pads _ => Fits pads
  | reduceSumGrad shape axes => Fits shape ∧ Fits axes
  | gatherGrad axis shape => Fits axis ∧ Fits shape
  | nll _ ignored | nllGrad _ ignored => Fits ignored
  | identity | unary _ | binary _ | matMul | sum | unaryGrad _ | l1 _ _ | l1Grad _ _ | sgdVarUpdate => True

/-- What is read behind the number of a type is a kind of that type, as it is written. -/
theorem eq_put_of_getFields {n : Nat} {bytes rest : Bytes} {k : OpKind}
    (h : (getFields n).run bytes = some (k, rest)) : n = k.tag ∧ k.FieldsFit ∧ bytes = k.putFields ++ rest := by
  unfold getFields at h
  split at h
  case h_54 => cases h
  case h_27 =>
    obtain ⟨a, b, d, ha, hb, hd, rfl, rfl⟩ := Wire.run_case₃_eq_some.1 h
    exact ⟨rfl, ⟨ha, hb, hd⟩, rfl⟩
  case h_16 | h_24 | h_28 | h_40 | h_45 | h_46 | h_49 | h_50 | h_51 | h_52 =>
    obtain ⟨a, b, ha, hb, rfl, rfl⟩ := Wire.run_case₂_eq_some.1 h
    first
      | exact ⟨rfl, ⟨ha, hb⟩, rfl⟩
      | exact ⟨rfl, ha, rfl⟩
      | exact ⟨rfl, hb, rfl⟩
  case h_15 | h_17 | h_25 | h_26 | h_29 | h_30 | h_31 | h_32 | h_39 | h_41 | h_42 | h_43 | h_44 | h_47 | h_48 =>
    obtain ⟨a, ha, rfl, rfl⟩ := Wire.run_case_eq_some.1 h
    exact ⟨rfl, ha, rfl⟩
  all_goals
    cases h
    exact ⟨rfl, trivial, rfl⟩

/-- The numbers of the type names. -/
theorem idxOf_typeNames : typeNames.map typeNames.idxOf = List.range typeNames.length := by
  decide +kernel

theorem tag_eq {k : OpKind} {n : Nat} (h : typeNames[n]? = some k.typeName) : k.tag = n := by
  have hentry : (typeNames.map typeNames.idxOf)[n]? = some k.tag := by
    rw [List.getElem?_map, h]
    rfl
  rw [idxOf_typeNames] at hentry
  obtain ⟨hlt, heq⟩ := List.getElem?_eq_some_iff.1 hentry
  rw [List.getElem_range] at heq
  exact heq.symm

/-- What is written of a kind behind the number of its type is read back. -/
theorem getFields_put {k : OpKind} (h : k.FieldsFit) (rest : Bytes) :
    (getFields k.tag).run (k.putFields ++ rest) = some (k, rest) := by
  have hnumber : ∀ n, typeNames[n]? = some k.typeName → (getFields n).run (k.putFields ++ rest) = some (k, rest) →
      (getFields k.tag).run (k.putFields ++ rest) = some (k, rest) := by
    intro n hn hread
    rwa [tag_eq hn]
  cases k with
  | identity => exact hnumber 0 rfl rfl
  | unary f =>
    cases f with
    | neg => exact hnumber 1 rfl rfl
    | reciprocal => exact hnumber 2 rfl rfl
    | sqrt => exact hnumber 3 rfl rfl
    | square => exact hnumber 4 rfl rfl
    | exp => exact hnumber 5 rfl rfl
    | log => exact hnumber 6 rfl rfl
    | abs => exact hnumber 7 rfl rfl
    | sign => exact hnumber 8 rfl rfl
    | ceil => exact hnumber 9 rfl rfl
    | floor => exact hnumber 10 rfl rfl
    | relu => exact hnumber 11 rfl rfl
    | sigmoid => exact hnumber 12 rfl rfl
    | tanh => exact hnumber 13 rfl rfl
    | scale => exact hnumber 14 rfl (Wire.run_case_eq_some.2 ⟨_, trivial, rfl, rfl⟩)
    | clip => exact hnumber 15 rfl (Wire.run_case₂_eq_some.2 ⟨_, _, trivial, trivial, rfl, rfl⟩)
  | softmax => exact hnumber 16 rfl (Wire.run_case_eq_some.2 ⟨_, h, rfl, rfl⟩)
  | binary f =>
    cases f with
    | add => exact hnumber 17 rfl rfl
    | sub => exact hnumber 18 rfl rfl
    | mul => exact hnumber 19 rfl rfl
    | div => exact hnumber 20 rfl rfl
  | matMul => exact hnumber 21 rfl rfl
  | sum => exact hnumber 22 rfl rfl
  | reduceSum => exact hnumber 23 rfl (Wire.run_case₂_eq_some.2 ⟨_, _, h, trivial, rfl, rfl⟩)
  | reshape => exact hnumber 24 rfl (Wire.run_case_eq_some.2 ⟨_, h, rfl, rfl⟩)
  | transpose => exact hnumber 25 rfl (Wire.run_case_eq_some.2 ⟨_, h, rfl, rfl⟩)
  | slice => exact hnumber 26 rfl (Wire.run_case₃_eq_some.2 ⟨_, _, _, h.1, h.2.1, h.2.2, rfl, rfl⟩)
  | pad => exact hnumber 27 rfl (Wire.run_case₂_eq_some.2 ⟨_, _, h, trivial, rfl, rfl⟩)
  | concat => exact hnumber 28 rfl (Wire.run_case_eq_some.2 ⟨_, h, rfl, rfl⟩)
  | gather => exact hnumber 29 rfl (Wire.run_case_eq_some.2 ⟨_, h, rfl, rfl⟩)
  | scatter => exact hnumber 30 rfl (Wire.run_case_eq_some.2 ⟨_, h, rfl, rfl⟩)
  | reduceToShape => exact hnumber 31 rfl (Wire.run_case_eq_some.2 ⟨_, h, rfl, rfl⟩)
  | unaryGrad f =>
    cases f with
    | sqrt => exact hnumber 32 rfl rfl
    | reciprocal => exact hnumber 33 rfl rfl
    | exp => exact hnumber 34 rfl rfl
    | relu => exact hnumber 35 rfl rfl
    | sigmoid => exact hnumber 36 rfl rfl
    | tanh => exact hnumber 37 rfl rfl
    | clip => exact hnumber 39 rfl (Wire.run_case₂_eq_some.2 ⟨_, _, trivial, trivial, rfl, rfl⟩)
  | softmaxGrad => exact hnumber 38 rfl (Wire.run_case_eq_some.2 ⟨_, h, rfl, rfl⟩)
  | operandGrad f =>
    cases f with
    | divLeft => exact hnumber 40 rfl (Wire.run_case_eq_some.2 ⟨_, h, rfl, rfl⟩)
    | divRight => exact hnumber 41 rfl (Wire.run_case_eq_some.2 ⟨_, h, rfl, rfl⟩)
    | mul => exact hnumber 42 rfl (Wire.run_case_eq_some.2 ⟨_, h, rfl, rfl⟩)
    | subRight => exact hnumber 43 rfl (Wire.run_case_eq_some.2 ⟨_, h, rfl, rfl⟩)
  | reduceSumGrad => exact hnumber 44 rfl (Wire.run_case₂_eq_some.2 ⟨_, _, h.1, h.2, rfl, rfl⟩)
  | gatherGrad => exact hnumber 45 rfl (Wire.run_case₂_eq_some.2 ⟨_, _, h.1, h.2, rfl, rfl⟩)
  | scatterDataGrad => exact hnumber 46 rfl (Wire.run_case_eq_some.2 ⟨_, h, rfl, rfl⟩)
  | scatterUpdatesGrad => exact hnumber 47 rfl (Wire.run_case_eq_some.2 ⟨_, h, rfl, rfl⟩)
  | nll => exact hnumber 48 rfl (Wire.run_case₂_eq_some.2 ⟨_, _, trivial, h, rfl, rfl⟩)
  | l1 => exact hnumber 49 rfl (Wire.run_case₂_eq_some.2 ⟨_, _, trivial, trivial, rfl, rfl⟩)
  | nllGrad => exact hnumber 50 rfl (Wire.run_case₂_eq_some.2 ⟨_, _, trivial, h, rfl, rfl⟩)
  | l1Grad => exact hnumber 51 rfl (Wire.run_case₂_eq_some.2 ⟨_, _, trivial, trivial, rfl, rfl⟩)
  | sgdVarUpdate => exact hnumber 52 rfl rfl

theorem tag_lt (k : OpKind) : k.tag < 2 ^ 32 := by
  have hle : k.tag ≤ typeNames.length := List.idxOf_le_length
  exact hle.trans_lt (by decide)

end OpKind

instance : LawfulWire OpKind where
  Fits := OpKind.FieldsFit
  get_iff := by
    intro bytes rest k
    constructor
    · intro h
      obtain ⟨n, mid, -, rfl, hfields⟩ := Wire.run_tagged_eq_some.1 h
      obtain ⟨rfl, hfits, rfl⟩ := OpKind.eq_put_of_getFields hfields
      exact ⟨hfits, (List.append_assoc _ _ _).symm⟩
    · rintro ⟨hfits, rfl⟩
      exact Wire.run_tagged_eq_some.2 ⟨k.tag, _, k.tag_lt, List.append_assoc _ _ _, OpKind.getFields_put hfits rest⟩

end TensorGraph
