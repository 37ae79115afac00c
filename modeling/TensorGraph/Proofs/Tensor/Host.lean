import TensorGraph.Kernel.Backend
import TensorGraph.Proofs.Stateful

/-!
Values whose elements have been checked: they are what was given, with as many elements as the info promises, of the
width that the info asks for. A value that comes from a device is checked too.
-/
namespace TensorGraph

variable {info : TensorInfo} {d : Storage} {v w : HostTensor}

/-- What has been counted fits its word. -/
theorem TensorInfo.counted_lt {n : Nat} (h : info.counted = .ok n) : n < Word.limit := by
  have hfold : ∀ {l : List Nat} {a n : Nat}, a < Word.limit → l.foldlM (fun n d => Word.nat (n * d)) a = .ok n →
      n < Word.limit := by
    intro l
    induction l with
    | nil =>
      intro a n ha h
      cases h
      exact ha
    | cons d l ih =>
      intro a n _ h
      rw [List.foldlM_cons] at h
      obtain ⟨m, hm, h⟩ := Outcome.bind_eq_ok.1 h
      obtain ⟨hlt, rfl⟩ := Word.nat_eq_ok_iff.1 hm
      exact ih hlt h
  exact hfold (by decide) h

namespace HostTensor

theorem ofStorage_ok (h : ofStorage info d = .ok v) :
    v = ⟨info, d⟩ ∧ d.length = info.count ∧ d.kind = info.dtype.storage := by
  unfold ofStorage at h
  obtain ⟨n, hn, h⟩ := Outcome.bind_eq_ok.1 h
  split at h
  · cases h
  · rename_i hlen
    split at h
    · cases h
    · rename_i hfits
      cases h
      rw [Bool.not_eq_false, Storage.fits, beq_iff_eq] at hfits
      exact ⟨rfl, (not_not.1 hlen).trans (TensorInfo.counted_eq hn), hfits⟩

theorem length_lt_of_ofStorage (h : ofStorage info d = .ok v) : d.length < Word.limit := by
  obtain ⟨n, hn, -⟩ := Outcome.bind_eq_ok.1 h
  rw [(ofStorage_ok h).2.1, ← TensorInfo.counted_eq hn]
  exact TensorInfo.counted_lt hn

/-- The elements of the value fit its info: the check for data from outside lets it in. -/
def Checked (v : HostTensor) : Prop := ofStorage v.info v.data = .ok v

theorem Checked.eq (h : v.Checked) : ofStorage v.info v.data = .ok v := h

end HostTensor

theorem Backend.download_eq_ok : download v = .ok w ↔ w = v ∧ v.Checked := by
  rw [download, Outcome.asExecution_eq_ok, HostTensor.Checked]
  constructor
  · intro h
    obtain ⟨rfl, -⟩ := HostTensor.ofStorage_ok h
    exact ⟨rfl, h⟩
  · rintro ⟨rfl, h⟩
    exact h

end TensorGraph
