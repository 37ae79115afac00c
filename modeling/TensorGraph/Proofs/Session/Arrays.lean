import TensorGraph.Proofs.Collection
import TensorGraph.Proofs.Stateful
import TensorGraph.Session.StepIo

/-!
Arrays of whole steps, cut into batches. A place in an array is always a whole number of batches from its start: after
the last batch it goes back there. What is written for one batch leaves the other batches of the buffer as they are.
-/
namespace TensorGraph

variable {s s' d v : Storage} {o n a : Nat}

/-! ## Parts of storages -/

namespace Storage

/-- The elements from `o` on, `n` of them as far as there are so many. -/
def cut (s : Storage) (o n : Nat) : Storage :=
  match s with
  | f32 v => .f32 ((v.drop o).take n)
  | i32 v => .i32 ((v.drop o).take n)
  | i64 v => .i64 ((v.drop o).take n)

theorem slice?_eq_some : s.slice? o n = some d ↔ o + n ≤ s.length ∧ d = s.cut o n := by
  have hdef : s.slice? o n = if s.length < o + n then none else some (s.cut o n) := by cases s <;> rfl
  rw [hdef]
  split
  · rename_i hlt
    simp [Nat.not_le.2 hlt]
  · rename_i hle
    simp [Nat.not_lt.1 hle, eq_comm]

/-- What can be written is written, and has the length and the width of what was there. -/
theorem write?_isSome (hle : o + v.length ≤ s.length) (hkind : v.kind = s.kind) : ∃ s', s.write? o v = some s' := by
  unfold write?
  rw [if_neg (Nat.not_lt.2 hle)]
  cases s <;> cases v <;> simp [kind] at hkind ⊢

theorem overlay_length {α : Type} {t w : List α} (h : o + w.length ≤ t.length) : (overlay t w o).length = t.length := by
  simp [overlay]
  omega

theorem overlay_same {α : Type} {t w : List α} (h : o + w.length ≤ t.length) :
    ((overlay t w o).drop o).take w.length = w := by
  have hlen : (t.take o).length = o := by simp; omega
  rw [overlay, List.append_assoc, List.drop_append_of_le_length (by omega), List.drop_eq_nil_of_le (by omega)]
  simp

theorem overlay_apart {α : Type} {t w : List α} (h : o + w.length ≤ t.length) (ha : a + n ≤ o ∨ o + w.length ≤ a) :
    ((overlay t w o).drop a).take n = (t.drop a).take n := by
  refine List.ext_getElem? fun i => ?_
  simp only [List.getElem?_take, List.getElem?_drop]
  split
  · simp only [overlay, List.getElem?_append, List.length_append, List.length_take, List.getElem?_take, List.getElem?_drop]
    split
    · split
      · split
        · rfl
        · omega
      · omega
    · congr 1
      omega
  · rfl

/-- What is written is there, and what is apart from it is as before. -/
theorem write?_eq_some (h : s.write? o v = some s') : o + v.length ≤ s.length ∧ v.kind = s.kind ∧
    s'.length = s.length ∧ s'.kind = s.kind ∧ s'.cut o v.length = v ∧
    ∀ a n, a + n ≤ o ∨ o + v.length ≤ a → s'.cut a n = s.cut a n := by
  unfold write? at h
  split at h
  · cases h
  · rename_i hle
    rw [Nat.not_lt] at hle
    cases s <;> cases v <;> cases h <;>
      exact ⟨hle, rfl, overlay_length hle, rfl, congrArg _ (overlay_same hle), fun a n ha => congrArg _ (overlay_apart hle ha)⟩

/-! ### Sums -/

/-- One storage is the sum of two others, element by element; whole numbers are added exactly. -/
inductive Added : Storage → Storage → Storage → Prop
  | f32 {t v : List Single} (h : t.length = v.length) : Added (.f32 t) (.f32 v) (.f32 (List.zipWith Single.add t v))
  | i32 {t v x : List Int32} (h : t.length = v.length)
    (hx : x.map Int32.toInt = List.zipWith (fun a b => a.toInt + b.toInt) t v) : Added (.i32 t) (.i32 v) (.i32 x)
  | i64 {t v x : List Int64} (h : t.length = v.length)
    (hx : x.map Int64.toInt = List.zipWith (fun a b => a.toInt + b.toInt) t v) : Added (.i64 t) (.i64 v) (.i64 x)

/-- The storages of a list added up, from the first on. -/
inductive Total : List Storage → Storage → Prop
  | single (v : Storage) : Total [v] v
  | add {l : List Storage} {t v x : Storage} (ht : Total l t) (hx : Added t v x) : Total (l ++ [v]) x

theorem mapM_exact {α : Type} {f : α → α → Outcome α} {int : α → Int} (hf : ∀ {a b c}, f a b = .ok c → int c = int a + int b) :
    ∀ {t v x : List α}, (t.zip v).mapM (fun (a, b) => f a b) = .ok x →
      x.map int = List.zipWith (fun a b => int a + int b) t v
  | [], _, x, h => by
    cases h
    rfl
  | _ :: _, [], x, h => by
    cases h
    rfl
  | a :: t, b :: v, x, h => by
    rw [List.zip_cons_cons, List.mapM_cons] at h
    obtain ⟨c, hc, h⟩ := Outcome.bind_eq_ok.1 h
    obtain ⟨x', hx', h⟩ := Outcome.bind_eq_ok.1 h
    cases h
    rw [List.map_cons, List.zipWith_cons_cons, hf hc, mapM_exact hf hx']

theorem add32_exact {x y z : Int32} (h : Word.add32 x y = .ok z) : z.toInt = x.toInt + y.toInt := by
  simp only [Word.add32] at h
  split at h
  · rename_i hsum
    cases h
    exact hsum.symm
  · cases h

theorem add64_exact {x y z : Int64} (h : Word.add64 x y = .ok z) : z.toInt = x.toInt + y.toInt := by
  simp only [Word.add64] at h
  split at h
  · rename_i hsum
    cases h
    exact hsum.symm
  · cases h

theorem accumulate_ok {t : Storage} {x : Option Storage} (hlen : t.length = v.length) (hkind : t.kind = v.kind)
    (h : t.accumulate v = .ok x) : ∃ y, x = some y ∧ Added t v y := by
  unfold accumulate at h
  rw [if_neg (not_not.2 hlen)] at h
  cases t with
  | f32 t =>
    cases v with
    | f32 v =>
      cases h
      exact ⟨_, rfl, .f32 hlen⟩
    | i32 v | i64 v => cases hkind
  | i32 t =>
    cases v with
    | i32 v =>
      obtain ⟨y, hy, h⟩ := Outcome.bind_eq_ok.1 h
      cases h
      exact ⟨_, rfl, .i32 hlen (mapM_exact add32_exact hy)⟩
    | f32 v | i64 v => cases hkind
  | i64 t =>
    cases v with
    | i64 v =>
      obtain ⟨y, hy, h⟩ := Outcome.bind_eq_ok.1 h
      cases h
      exact ⟨_, rfl, .i64 hlen (mapM_exact add64_exact hy)⟩
    | f32 v | i32 v => cases hkind

theorem Added.same {t x : Storage} (h : Added t v x) : x.length = t.length ∧ x.kind = t.kind := by
  cases h with
  | f32 h => exact ⟨by simp [length, h], rfl⟩
  | i32 h hx | i64 h hx =>
    refine ⟨?_, rfl⟩
    have hlen := congrArg List.length hx
    simpa [h, length] using hlen

theorem Total.same {l : List Storage} {x : Storage} {k : Nat} {w : StorageKind} (h : Total l x)
    (hl : ∀ v ∈ l, v.length = k ∧ v.kind = w) : x.length = k ∧ x.kind = w := by
  induction h with
  | single v => exact hl v (by simp)
  | add ht hx ih =>
    obtain ⟨hlen, hkind⟩ := ih fun v hv => hl v (by simp [hv])
    exact ⟨hx.same.1.trans hlen, hx.same.2.trans hkind⟩

/-! ### Batches -/

/-- Writing batch `i` of a storage of batches of `n` elements: it is there, and the others are as before. -/
theorem write?_batch {i : Nat} (h : s.write? (i * n) v = some s') (hv : v.length = n) :
    s'.slice? (i * n) n = some v ∧ ∀ j d, j ≠ i → s.slice? (j * n) n = some d → s'.slice? (j * n) n = some d := by
  obtain ⟨hle, -, hlen, -, hsame, hapart⟩ := write?_eq_some h
  rw [hv] at hle hsame hapart
  refine ⟨slice?_eq_some.2 ⟨hlen ▸ hle, hsame.symm⟩, fun j d hne hd => ?_⟩
  obtain ⟨hle', hd⟩ := slice?_eq_some.1 hd
  have hdisjoint : j * n + n ≤ i * n ∨ i * n + n ≤ j * n := by
    rcases Nat.lt_or_gt_of_ne hne with hlt | hlt
    · exact .inl (by rw [← Nat.succ_mul]; exact Nat.mul_le_mul_right n hlt)
    · exact .inr (by rw [← Nat.succ_mul]; exact Nat.mul_le_mul_right n hlt)
  exact slice?_eq_some.2 ⟨hlen ▸ hle', hd.trans (hapart _ _ hdisjoint).symm⟩

end Storage

/-! ## Places -/

namespace ArrayIo

/-- In an array of `k` batches of `n` elements the place moves from batch to batch, and from the last to the first. -/
theorem advance_batch {p k : Nat} (hp : p < k) (n : Nat) : advance (p * n) n (k * n) = (p + 1) % k * n := by
  have hnext : p * n + n = (p + 1) * n := (Nat.succ_mul p n).symm
  unfold advance
  rw [hnext]
  rcases Nat.lt_or_ge (p + 1) k with hlt | hge
  · rw [Nat.mod_eq_of_lt hlt]
    rcases Nat.eq_zero_or_pos n with rfl | hn
    · simp
    · rw [if_neg (Nat.not_le.2 (Nat.mul_lt_mul_of_pos_right hlt hn))]
  · obtain rfl : p + 1 = k := by omega
    rw [if_pos (Nat.le_refl _), Nat.mod_self, Nat.zero_mul]

variable {io io' : ArrayIo} {id : TensorId} {info : TensorInfo}

/-- Where the next batch of a stream starts. -/
def inputOffset (io : ArrayIo) (id : TensorId) : Nat := ((io.inputCursors.get? id).map (·.offset)).getD 0

/-- Where the next value of an anchor goes. -/
def outputOffset (io : ArrayIo) (id : TensorId) : Nat := (io.outputCursors.get? id).getD 0

/-- Takes the next batch of a stream. -/
def take (id : TensorId) (info : TensorInfo) : Stateful ArrayIo Storage := do
  let data ← input id info
  inputDone id
  return data

/-- A batch of a stream was taken: only the place in its array has moved on. -/
structure Took (id : TensorId) (info : TensorInfo) (data : Storage) (io io' : ArrayIo) : Prop where
  array : ∃ t, io.inputs.get? id = some t ∧ t.data.slice? (io.inputOffset id) info.count = some data ∧
    io'.inputOffset id = advance (io.inputOffset id) info.count t.data.length
  others : ∀ id', id ≠ id' → io'.inputOffset id' = io.inputOffset id'
  inputs : io'.inputs = io.inputs
  outputs : io'.outputs = io.outputs
  outputCursors : io'.outputCursors = io.outputCursors

theorem take_ends (id : TensorId) (info : TensorInfo) (io : ArrayIo) :
    Stateful.Ends (fun data io' => Took id info data io io') (fun _ io' => io' = io) (take id info) io := by
  refine .bind (R := fun data io' => ∃ t, io.inputs.get? id = some t ∧
    t.data.slice? (io.inputOffset id) info.count = some data ∧
    io' = { io with inputCursors := io.inputCursors.insert id ⟨io.inputOffset id, info.count⟩ }) ?_ ?_
  · refine .change (fun data io' h => ?_) fun _ _ => rfl
    obtain ⟨t, ht, h⟩ := Outcome.bind_eq_ok.1 h
    obtain ⟨n, hn, h⟩ := Outcome.bind_eq_ok.1 h
    obtain ⟨d, hd, h⟩ := Outcome.bind_eq_ok.1 h
    cases h
    rw [TensorInfo.counted_eq hn] at hd ⊢
    exact ⟨t, Outcome.orFail_eq_ok.1 ht, Outcome.orFail_eq_ok.1 hd, rfl⟩
  · rintro data _ ⟨t, ht, hd, rfl⟩
    refine .bind (R := fun _ io' => Took id info data io io') (.change (fun _ io' h => ?_) fun e h => ?_)
      fun _ _ h => .pure h
    · obtain ⟨t', ht', h⟩ := Outcome.bind_eq_ok.1 h
      obtain ⟨c, hc, h⟩ := Outcome.bind_eq_ok.1 h
      cases h
      rw [array, Outcome.orFail_eq_ok, ht, Option.some.injEq] at ht'
      rw [Outcome.orFail_eq_ok, Dict.get?_insert, if_pos rfl, Option.some.injEq] at hc
      subst ht' hc
      refine ⟨⟨t, ht, hd, ?_⟩, fun id' hne => ?_, rfl, rfl, rfl⟩
      · simp [inputOffset, Dict.get?_insert]
      · simp [inputOffset, Dict.get?_insert, hne]
    · rw [array, ht, Dict.get?_insert, if_pos rfl] at h
      cases h

/-- A value was written at the place of an anchor, which has moved on. -/
structure Wrote (id : TensorId) (value : Storage) (io io' : ArrayIo) : Prop where
  buffer : ∃ t data, io.outputs.get? id = some t ∧ t.data.write? (io.outputOffset id) value = some data ∧
    io'.outputs.get? id = some { t with data } ∧
    io'.outputOffset id = advance (io.outputOffset id) value.length t.data.length
  others : ∀ id', id ≠ id' → io'.outputs.get? id' = io.outputs.get? id' ∧ io'.outputOffset id' = io.outputOffset id'
  inputs : io'.inputs = io.inputs
  inputCursors : io'.inputCursors = io.inputCursors

theorem output_ends (id : TensorId) (value : Storage) (io : ArrayIo) :
    Stateful.Ends (fun _ io' => Wrote id value io io') (fun _ io' => io' = io) (output id value) io := by
  refine .change (fun _ io' h => ?_) fun _ _ => rfl
  obtain ⟨t, ht, h⟩ := Outcome.bind_eq_ok.1 h
  obtain ⟨d, hd, h⟩ := Outcome.bind_eq_ok.1 h
  cases h
  refine ⟨⟨t, d, Outcome.orFail_eq_ok.1 ht, Outcome.orFail_eq_ok.1 hd, ?_, ?_⟩, fun id' hne => ⟨?_, ?_⟩, rfl, rfl⟩
  · simp [Dict.get?_insert]
  · simp [outputOffset, Dict.get?_insert]
  · simp [Dict.get?_insert, hne]
  · simp [outputOffset, Dict.get?_insert, hne]

/-- Arrays and buffers that pass the check have the sizes that it asks for. -/
theorem check_ok {ins outs : Dict TensorId Nat} (h : check ins outs io = .ok ()) :
    (∀ {id n}, ins.get? id = some n → ∃ t, io.inputs.get? id = some t ∧ t.data.length = n) ∧
    ∀ {id n}, outs.get? id = some n → ∃ t, io.outputs.get? id = some t ∧ t.data.length = n := by
  unfold check at h
  obtain ⟨_, hins, houts⟩ := Outcome.bind_eq_ok.1 h
  rw [Outcome.forM_eq_ok] at hins houts
  have hsize : ∀ {held : Outcome HostTensor} {n : Nat} {e : HostTensor → Error},
      (do let t ← held
          if t.data.length ≠ n then Outcome.fail (e t) else pure ⟨⟩) = (.ok ⟨⟩ : Outcome PUnit) →
      ∃ t, held = .ok t ∧ t.data.length = n := by
    intro held n e h
    obtain ⟨t, ht, h⟩ := Outcome.bind_eq_ok.1 h
    refine ⟨t, ht, ?_⟩
    split at h
    · cases h
    · rename_i heq
      exact not_not.1 heq
  refine ⟨fun {id n} hid => ?_, fun {id n} hid => ?_⟩
  · obtain ⟨t, ht, hlen⟩ := hsize (hins (id, n) (Dict.mem_entries.2 hid))
    exact ⟨t, Outcome.orFail_eq_ok.1 ht, hlen⟩
  · obtain ⟨t, ht, hlen⟩ := hsize (houts (id, n) (Dict.mem_entries.2 hid))
    exact ⟨t, Outcome.orFail_eq_ok.1 ht, hlen⟩

end ArrayIo

end TensorGraph
