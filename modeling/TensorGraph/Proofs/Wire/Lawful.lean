import TensorGraph.Proofs.Collection
import TensorGraph.Wire.Op
import Mathlib.Data.List.Nodup
import Mathlib.Tactic.Ring

/-!
What a byte format owes its readers, as one law: a value is found in front of some bytes exactly if it fits the
words of the format and the bytes are the value as it is written, followed by the rest. Reading back what was
written, ignoring what follows, refusing what was cut short and writing again what was read all follow from it.
The law holds of numbers, variants without fields, texts, pairs and lists, and so of whatever is spelled by them.
-/
namespace TensorGraph

/-- A byte format in which every value that fits is written in one way only. -/
class LawfulWire (α : Type) [Wire α] where
  /-- Whether the words of the format hold the value. -/
  Fits : α → Prop
  get_iff {bytes rest : Bytes} {a : α} :
    Wire.get.run bytes = some (a, rest) ↔ Fits a ∧ bytes = put a ++ rest

export LawfulWire (Fits)

namespace Wire

variable {α β : Type}

/-! ## Readers -/

theorem run_bind_eq_some {x : Reader α} {f : α → Reader β} {bytes rest : Bytes} {b : β} :
    (x >>= f).run bytes = some (b, rest) ↔
      ∃ a mid, x.run bytes = some (a, mid) ∧ (f a).run mid = some (b, rest) := by
  simp [StateT.run_bind, Option.bind_eq_some_iff]

theorem run_pure_eq_some {a b : α} {bytes rest : Bytes} :
    (pure a : Reader α).run bytes = some (b, rest) ↔ b = a ∧ bytes = rest := by
  simp [eq_comm]

theorem run_map_eq_some {x : Reader α} {f : α → β} {bytes rest : Bytes} {b : β} :
    (f <$> x).run bytes = some (b, rest) ↔ ∃ a, x.run bytes = some (a, rest) ∧ f a = b := by
  simp [StateT.run_map]

theorem run_lift_eq_some {o : Option α} {bytes rest : Bytes} {a : α} :
    (StateT.lift o : Reader α).run bytes = some (a, rest) ↔ o = some a ∧ bytes = rest := by
  cases o <;> simp [StateT.run, StateT.lift]

theorem run_takeBytes_eq_some {n : Nat} {bytes front rest : Bytes} :
    (takeBytes n).run bytes = some (front, rest) ↔ front.length = n ∧ bytes = front ++ rest := by
  simp only [StateT.run, takeBytes, List.length_take]
  constructor
  · intro h
    split at h
    · cases h
    · cases h
      exact ⟨by simp only [List.length_take]; omega, (List.take_append_drop n bytes).symm⟩
  · rintro ⟨rfl, rfl⟩
    simp

/-! ## Numbers -/

theorem length_little (width n : Nat) : (little width n).length = width := by
  induction width generalizing n with
  | zero => rfl
  | succ width ih => simp [little, ih]

theorem little_ofLittle (bytes : Bytes) : little bytes.length (ofLittle bytes) = bytes := by
  induction bytes with
  | nil => rfl
  | cons b rest ih =>
    have hb := b.toNat_lt
    have hlow : UInt8.ofNat (b.toNat + 256 * ofLittle rest) = b := by
      rw [← UInt8.toNat_inj, UInt8.toNat_ofNat']
      omega
    have hhigh : (b.toNat + 256 * ofLittle rest) / 256 = ofLittle rest := by omega
    simp only [List.length_cons, ofLittle, little, hlow, hhigh, ih]

theorem ofLittle_little {width n : Nat} (h : n < 256 ^ width) : ofLittle (little width n) = n := by
  induction width generalizing n with
  | zero =>
    have : n = 0 := by omega
    simp [little, ofLittle, this]
  | succ width ih =>
    rw [pow_succ] at h
    have hlow : (UInt8.ofNat n).toNat = n % 256 := UInt8.toNat_ofNat'
    have hhigh : n / 256 < 256 ^ width := by omega
    rw [little, ofLittle, ih hhigh, hlow, Nat.mod_add_div]

theorem ofLittle_lt (bytes : Bytes) : ofLittle bytes < 256 ^ bytes.length := by
  induction bytes with
  | nil => simp [ofLittle]
  | cons b rest ih =>
    have hb := b.toNat_lt
    simp only [ofLittle, List.length_cons, pow_succ]
    omega

theorem run_getLittle_eq_some {width n : Nat} {bytes rest : Bytes} :
    (getLittle width).run bytes = some (n, rest) ↔ n < 256 ^ width ∧ bytes = little width n ++ rest := by
  simp only [getLittle, run_bind_eq_some, run_pure_eq_some, run_takeBytes_eq_some]
  constructor
  · rintro ⟨front, mid, ⟨rfl, rfl⟩, rfl, rfl⟩
    exact ⟨ofLittle_lt front, by rw [little_ofLittle]⟩
  · rintro ⟨hn, rfl⟩
    exact ⟨_, _, ⟨length_little width n, rfl⟩, (ofLittle_little hn).symm, rfl⟩

theorem run_getTag_eq_some {n : Nat} {bytes rest : Bytes} :
    getTag.run bytes = some (n, rest) ↔ n < 2 ^ 32 ∧ bytes = putTag n ++ rest :=
  run_getLittle_eq_some

instance : LawfulWire Nat where
  Fits n := n < Word.limit
  get_iff := run_getLittle_eq_some

end Wire

namespace LawfulWire

open Wire

variable {α β : Type} [Wire α] [Wire β]

/-- A format that spells its values by those of another one, to and fro. -/
@[reducible] def ofEquiv [LawfulWire β] (e : α ≃ β) (hput : ∀ a : α, put a = put (e a))
    (hget : (Wire.get : Reader α) = e.symm <$> Wire.get) : LawfulWire α where
  Fits a := Fits (e a)
  get_iff := by
    intro bytes rest a
    rw [hget, run_map_eq_some, hput]
    constructor
    · rintro ⟨b, hb, rfl⟩
      simpa using get_iff.1 hb
    · intro h
      exact ⟨e a, get_iff.2 h, e.symm_apply_apply a⟩

/-- A format that spells its values by numbers of one width. -/
@[reducible] def ofWord (width : Nat) (enc : α → Nat) (dec : Nat → α) (Fits : α → Prop)
    (hput : ∀ a : α, put a = little width (enc a)) (hget : (Wire.get : Reader α) = dec <$> getLittle width)
    (hdec : ∀ n < 256 ^ width, Fits (dec n) ∧ enc (dec n) = n)
    (henc : ∀ a, Fits a → enc a < 256 ^ width ∧ dec (enc a) = a) : LawfulWire α where
  Fits := Fits
  get_iff := by
    intro bytes rest a
    simp only [hget, hput, run_map_eq_some, run_getLittle_eq_some]
    constructor
    · rintro ⟨n, ⟨hn, rfl⟩, rfl⟩
      exact ⟨(hdec n hn).1, by rw [(hdec n hn).2]⟩
    · rintro ⟨ha, rfl⟩
      exact ⟨enc a, ⟨(henc a ha).1, rfl⟩, (henc a ha).2⟩

/-- Of two values in front of the same bytes there is only one. -/
theorem put_append_inj [LawfulWire α] {a b : α} {rest rest' : Bytes} (ha : Fits a) (hb : Fits b)
    (h : put a ++ rest = put b ++ rest') : a = b ∧ rest = rest' := by
  have hread := get_iff.2 ⟨ha, h.symm⟩
  rw [get_iff.2 ⟨hb, rfl⟩] at hread
  exact ⟨(congrArg Prod.fst (Option.some.inj hread)).symm, (congrArg Prod.snd (Option.some.inj hread)).symm⟩

theorem put_inj [LawfulWire α] {a b : α} (ha : Fits a) (hb : Fits b) (h : put a = put b) : a = b := by
  have happend : put a ++ [] = put b ++ [] := by rw [h]
  exact (put_append_inj ha hb happend).1

end LawfulWire

namespace Wire

variable {α β : Type} [Wire α] [Wire β]

instance : LawfulWire UInt32 :=
  .ofWord 4 UInt32.toNat UInt32.ofNat (fun _ => True) (fun _ => rfl) rfl
    (fun _ hn => ⟨trivial, UInt32.toNat_ofNat_of_lt' hn⟩) (fun a _ => ⟨a.toNat_lt, UInt32.ofNat_toNat⟩)

instance : LawfulWire UInt64 :=
  .ofWord 8 UInt64.toNat UInt64.ofNat (fun _ => True) (fun _ => rfl) rfl
    (fun _ hn => ⟨trivial, UInt64.toNat_ofNat_of_lt' hn⟩) (fun a _ => ⟨a.toNat_lt, UInt64.ofNat_toNat⟩)

theorem size_eq : (UInt64.size : Int) = 2 * Word.half := rfl

theorem bmod_fits (n : Int) : -(Word.half : Int) ≤ n.bmod UInt64.size ∧ n.bmod UInt64.size < Word.half := by
  have hlow := @Int.le_bmod n _ (by decide : 0 < UInt64.size)
  have hhigh := @Int.bmod_lt n _ (by decide : 0 < UInt64.size)
  rw [size_eq] at hlow hhigh
  omega

instance : LawfulWire Int :=
  .ofWord 8 (fun i => (i % UInt64.size).toNat) (fun n => Int.bmod n UInt64.size)
    (fun i => -(Word.half : Int) ≤ i ∧ i < Word.half) (fun _ => rfl) rfl
    (by
      intro n hn
      have hn : (n : Int) < UInt64.size := Int.ofNat_lt.2 hn
      refine ⟨bmod_fits n, ?_⟩
      rw [Int.bmod_emod, Int.emod_eq_of_lt (Int.natCast_nonneg n) hn, Int.toNat_natCast])
    (by
      intro i hi
      have hpos : 0 ≤ i % UInt64.size := Int.emod_nonneg _ (by decide)
      have hlt : i % UInt64.size < UInt64.size := Int.emod_lt_of_pos _ (by decide)
      refine ⟨(Int.toNat_lt hpos).2 hlt, ?_⟩
      rw [Int.toNat_of_nonneg hpos, Int.emod_bmod]
      rw [size_eq] at hlt
      exact Int.bmod_eq_of_le_mul_two (by rw [size_eq]; omega) (by rw [size_eq]; omega))

instance : LawfulWire Int32 :=
  .ofEquiv ⟨Int32.toUInt32, UInt32.toInt32, fun _ => rfl, fun _ => rfl⟩ (fun _ => rfl) rfl

instance : LawfulWire Int64 :=
  .ofEquiv ⟨Int64.toUInt64, UInt64.toInt64, fun _ => rfl, fun _ => rfl⟩ (fun _ => rfl) rfl

instance : LawfulWire Single :=
  .ofEquiv ⟨Single.bits, Single.mk, fun _ => rfl, fun _ => rfl⟩ (fun _ => rfl) rfl

/-! ## Texts, pairs and lists -/

theorem fromUTF8?_eq_some {bytes : Bytes} {s : String} :
    String.fromUTF8? ⟨bytes.toArray⟩ = some s ↔ bytes = s.toByteArray.data.toList := by
  unfold String.fromUTF8?
  constructor
  · intro h
    split at h
    · cases h
      rfl
    · cases h
  · rintro rfl
    exact dif_pos s.isValidUTF8

instance : LawfulWire String where
  Fits s := s.toByteArray.size < Word.limit
  get_iff := by
    intro bytes rest s
    simp only [Wire.get, put, run_bind_eq_some, run_lift_eq_some, run_getLittle_eq_some, run_takeBytes_eq_some,
      fromUTF8?_eq_some]
    constructor
    · rintro ⟨n, mid, ⟨hn, rfl⟩, front, rest, ⟨rfl, rfl⟩, rfl, rfl⟩
      exact ⟨hn, by rw [List.append_assoc]; rfl⟩
    · rintro ⟨hs, rfl⟩
      exact ⟨_, _, ⟨hs, List.append_assoc _ _ _⟩, _, _, ⟨rfl, rfl⟩, rfl, rfl⟩

theorem put_pair (a : α) (b : β) : put (a, b) = put a ++ put b := rfl

theorem get_pair : (Wire.get : Reader (α × β)) = do return (← Wire.get, ← Wire.get) := rfl

instance [LawfulWire α] [LawfulWire β] : LawfulWire (α × β) where
  Fits p := Fits p.1 ∧ Fits p.2
  get_iff := by
    rintro bytes rest ⟨a, b⟩
    simp only [Wire.get, put, run_bind_eq_some, run_pure_eq_some, LawfulWire.get_iff]
    constructor
    · rintro ⟨a, mid, ⟨ha, rfl⟩, b, last, ⟨hb, rfl⟩, heq, rfl⟩
      cases heq
      exact ⟨⟨ha, hb⟩, by rw [List.append_assoc]⟩
    · rintro ⟨⟨ha, hb⟩, rfl⟩
      exact ⟨a, _, ⟨ha, List.append_assoc _ _ _⟩, b, rest, ⟨hb, rfl⟩, rfl, rfl⟩

theorem run_getMany_eq_some [LawfulWire α] {n : Nat} {bytes rest : Bytes} {l : List α} :
    (getMany n).run bytes = some (l, rest) ↔
      l.length = n ∧ (∀ a ∈ l, Fits a) ∧ bytes = l.flatMap put ++ rest := by
  induction n generalizing bytes l with
  | zero =>
    simp only [getMany, run_pure_eq_some, List.length_eq_zero_iff]
    constructor
    · rintro ⟨rfl, rfl⟩
      simp
    · rintro ⟨rfl, -, h⟩
      exact ⟨rfl, by simpa using h⟩
  | succ n ih =>
    simp only [getMany, run_bind_eq_some, run_pure_eq_some, LawfulWire.get_iff]
    constructor
    · rintro ⟨a, mid, ⟨ha, rfl⟩, l, last, hl, rfl, rfl⟩
      obtain ⟨rfl, hfits, rfl⟩ := ih.1 hl
      simpa using ⟨ha, hfits⟩
    · rintro ⟨hlen, hl, rfl⟩
      obtain ⟨a, l, rfl⟩ := List.exists_cons_of_length_eq_add_one hlen
      simp only [List.mem_cons, forall_eq_or_imp] at hl
      refine ⟨a, _, ⟨hl.1, ?_⟩, l, rest, ih.2 ⟨by simpa using hlen, hl.2, rfl⟩, rfl, rfl⟩
      rw [List.flatMap_cons, List.append_assoc]

instance [LawfulWire α] : LawfulWire (List α) where
  Fits l := l.length < Word.limit ∧ ∀ a ∈ l, Fits a
  get_iff := by
    intro bytes rest l
    simp only [Wire.get, put, run_bind_eq_some, run_getLittle_eq_some, run_getMany_eq_some]
    constructor
    · rintro ⟨n, mid, ⟨hn, rfl⟩, rfl, hl, rfl⟩
      exact ⟨⟨hn, hl⟩, by rw [List.append_assoc]⟩
    · rintro ⟨⟨hlen, hl⟩, rfl⟩
      exact ⟨_, _, ⟨hlen, List.append_assoc _ _ _⟩, rfl, hl, rfl⟩

/-! ## Truth values and values that may be missing -/

instance : LawfulWire Bool where
  Fits _ := True
  get_iff := by
    intro bytes rest b
    constructor
    · intro h
      simp only [Wire.get, StateT.run] at h
      split at h
      · cases h
        exact ⟨trivial, rfl⟩
      · cases h
        exact ⟨trivial, rfl⟩
      · cases h
    · rintro ⟨-, rfl⟩
      cases b <;> rfl

instance [LawfulWire α] : LawfulWire (Option α) where
  Fits o := ∀ a ∈ o, Fits a
  get_iff := by
    intro bytes rest o
    constructor
    · intro h
      simp only [Wire.get, StateT.run] at h
      split at h
      · cases h
        exact ⟨nofun, rfl⟩
      · obtain ⟨⟨a, mid⟩, hread, h⟩ := Option.bind_eq_some_iff.1 h
        cases h
        obtain ⟨ha, rfl⟩ := LawfulWire.get_iff.1 hread
        exact ⟨fun b hb => Option.some.inj hb ▸ ha, rfl⟩
      · cases h
    · rintro ⟨ho, rfl⟩
      cases o with
      | none => rfl
      | some a => exact Option.bind_eq_some_iff.2 ⟨(a, rest), LawfulWire.get_iff.2 ⟨ho a rfl, rfl⟩, rfl⟩

/-! ## Variants -/

theorem run_tagged_eq_some {γ : Type} {f : Nat → Reader γ} {bytes rest : Bytes} {a : γ} :
    (getTag >>= f).run bytes = some (a, rest) ↔
      ∃ n mid, n < 2 ^ 32 ∧ bytes = putTag n ++ mid ∧ (f n).run mid = some (a, rest) := by
  simp only [run_bind_eq_some, run_getTag_eq_some, and_assoc]

theorem run_case_eq_some {γ : Type} [LawfulWire β] {c : β → γ} {bytes rest : Bytes} {a : γ} :
    (do return c (← Wire.get) : Reader γ).run bytes = some (a, rest) ↔
      ∃ b, Fits b ∧ a = c b ∧ bytes = put b ++ rest := by
  simp only [run_bind_eq_some, run_pure_eq_some, LawfulWire.get_iff]
  constructor
  · rintro ⟨b, mid, ⟨hb, rfl⟩, rfl, rfl⟩
    exact ⟨b, hb, rfl, rfl⟩
  · rintro ⟨b, hb, rfl, rfl⟩
    exact ⟨b, rest, ⟨hb, rfl⟩, rfl, rfl⟩

theorem run_getEnum_eq_some {α : Type} [DecidableEq α] {all : List α} (hnodup : all.Nodup)
    (hsize : all.length ≤ 2 ^ 32) {bytes rest : Bytes} {a : α} :
    (getEnum all).run bytes = some (a, rest) ↔ a ∈ all ∧ bytes = putTag (all.idxOf a) ++ rest := by
  simp only [getEnum, run_bind_eq_some, run_lift_eq_some, run_getTag_eq_some]
  constructor
  · rintro ⟨n, mid, ⟨hn, rfl⟩, ha, rfl⟩
    obtain ⟨hlt, rfl⟩ := List.getElem?_eq_some_iff.1 ha
    exact ⟨List.getElem_mem hlt, by rw [hnodup.idxOf_getElem]⟩
  · rintro ⟨ha, rfl⟩
    have hlt := List.idxOf_lt_length_of_mem ha
    exact ⟨_, _, ⟨by omega, rfl⟩, by rw [List.getElem?_idxOf ha], rfl⟩

end Wire

/-! ## Tensors -/

instance : LawfulWire DType where
  Fits d := d ∈ DType.all
  get_iff := Wire.run_getEnum_eq_some (by decide) (by decide)

instance : LawfulWire TensorInfo :=
  .ofEquiv ⟨fun i => (i.dtype, i.shape), fun p => ⟨p.1, p.2⟩, fun _ => rfl, fun _ => rfl⟩ (fun _ => rfl)
    (by simp only [Wire.get_pair, map_bind, map_pure]; rfl)

instance : LawfulWire Storage where
  Fits
    | .f32 v => Fits v
    | .i32 v => Fits v
    | .i64 v => Fits v
  get_iff := by
    intro bytes rest s
    constructor
    · intro h
      obtain ⟨n, mid, -, rfl, hcase⟩ := Wire.run_tagged_eq_some.1 h
      split at hcase
      case h_4 => cases hcase
      all_goals
        obtain ⟨v, hv, rfl, rfl⟩ := Wire.run_case_eq_some.1 hcase
        exact ⟨hv, (List.append_assoc _ _ _).symm⟩
    · rintro ⟨hs, rfl⟩
      cases s
      all_goals
        refine Wire.run_tagged_eq_some.2 ⟨_, _, ?_, List.append_assoc _ _ _, ?_⟩
        · decide
        · exact Wire.run_case_eq_some.2 ⟨_, hs, rfl, rfl⟩

instance : LawfulWire HostTensor :=
  .ofEquiv ⟨fun t => (t.info, t.data), fun p => ⟨p.1, p.2⟩, fun _ => rfl, fun _ => rfl⟩ (fun _ => rfl)
    (by simp only [Wire.get_pair, map_bind, map_pure]; rfl)

end TensorGraph
