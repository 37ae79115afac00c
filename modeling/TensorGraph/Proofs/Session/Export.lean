import TensorGraph.Proofs.Model.Codec
import TensorGraph.Proofs.Session.Replacing
import TensorGraph.Proofs.Session.Weights

/-!
Weights that leave a session and enter another one. A session exports its model with the weights as they are, and
another session of the same model that takes this over has the same weights on its device and exports the same.
-/
namespace TensorGraph

open Stateful

namespace Model

variable {m : Model} {id : TensorId}

/-- The model with other data in its initializers. -/
def withData (m : Model) (data : TensorId → Storage) : Model :=
  { m with initializers := m.initializers.map fun init => { init with data := data init.name } }

theorem Storable.withData (h : m.Storable) {data : TensorId → Storage}
    (hdata : ∀ init ∈ m.initializers, (data init.name).length < Word.limit) : (m.withData data).Storable := by
  obtain ⟨hlen, hfits⟩ := h.initializers
  refine h.withInitializers ⟨by rwa [List.length_map], fun init' hinit' => ?_⟩
  obtain ⟨init, hinit, rfl⟩ := List.mem_map.1 hinit'
  exact NamedTensor.fits_withData (hfits init hinit) (hdata init hinit)

end Model

namespace Session

variable {W : Prop} {c : SessionConfig} {p p' : Platform} {s t : Session} {r : Runtime} {data : TensorId → Storage}

/-! ## What is exported -/

/-- The value of a weight is that on the device once weights have been put there, else that of the host. -/
def weight? (t : Session) (r : Runtime) (id : TensorId) : Option HostTensor :=
  if t.weightsUploaded then r.memory.tensor? id else t.hostWeights.get? id

/-- The weights of a session of a model, with the given data. -/
def HoldsData (t : Session) (r : Runtime) (m : Model) (data : TensorId → Storage) : Prop :=
  ∀ init ∈ m.initializers, t.weight? r init.name = some ⟨init.info, data init.name⟩ ∧
    HostTensor.Checked ⟨init.info, data init.name⟩

theorem Descends.isPrepared (hd : Descends s t) (hr : t.engine = some r) : t.isPrepared = true :=
  decide_eq_true fun hc => absurd ((hd.constructed hc).symm.trans hr) nofun

/-- What has been exported can be read back. -/
theorem HoldsData.ofBytes_toBytes (h : t.HoldsData r s.model data) (hs : s.Opened) :
    Model.ofBytes (s.model.withData data).toBytes = .ok (s.model.withData data) := by
  obtain ⟨bytes, hdecoded⟩ := hs.decoded
  have hstorable := (Model.storable_of_ofBytes hdecoded).withData fun init hinit =>
    HostTensor.length_lt_of_ofStorage (h init hinit).2
  simpa using Model.ofBytes_toBytes_append hstorable []

/-! ## What is taken over -/

/-- The session after it has been prepared and its weight was replaced by one with fewer data than its info says. -/
def truncated (s : Session) : Session :=
  ((writeWeights (.ofList [("w", ⟨⟨.float, [1]⟩, .f32 []⟩)])).run s.readied).2

end Session

end TensorGraph
