import TensorGraph.Device.Rack
import TensorGraph.Proofs.Stateful
import TensorGraph.Proofs.Collection

/-!
Exclusive use of the chips of a rack. Devices overlap: a chip belongs to one device of each size. Whatever calls are
made on a rack, a slot that is in use names a device that holds all its slots, so attached devices have no slot in
common; a device that is leased stays attached and has one lease, and nothing but its own `detach` or the end of its
lease takes its slots away. Each call either takes the free slots of one device, gives back those of one device, or
changes no slot: the rest follows from that.
-/
namespace TensorGraph

namespace Rack

variable {r r' : Rack} {d d' : Device} {slot : Nat}

/-! ## Slots -/

theorem holds_iff : r.holds d slot = true ↔ r.holders.get? slot = some d.id := by
  rw [holds, beq_iff_eq]

theorem isFree_iff : r.isFree slot = true ↔ r.holders.get? slot = none := by
  rw [isFree, Bool.not_eq_true', Dict.contains_eq_false_iff]

theorem isAttached_iff : r.isAttached d = true ↔ ∀ slot ∈ d.members, r.holders.get? slot = some d.id := by
  simp only [isAttached, List.all_eq_true, holds_iff]

theorem isLeased_iff : r.isLeased d = true ↔ d.id ∈ r.leased := SortedSet.contains_iff

theorem get?_foldl_insert (v slot : Nat) : ∀ (l : List Nat) (h : Dict Nat Nat),
    (l.foldl (fun h slot => h.insert slot v) h).get? slot = if slot ∈ l then some v else h.get? slot
  | [], h => by simp
  | i :: l, h => by
    rw [List.foldl_cons, get?_foldl_insert v slot l, Dict.get?_insert]
    by_cases hi : i = slot
    · simp [hi]
    · simp [hi, Ne.symm hi]

/-- A device takes its slots, all of which were free. -/
structure Takes (d : Device) (r r' : Rack) : Prop where
  free : ∀ slot ∈ d.members, r.holders.get? slot = none
  holders : ∀ slot, r'.holders.get? slot = if slot ∈ d.members then some d.id else r.holders.get? slot

/-- A device gives back those of its slots that it holds. -/
def GivesBack (d : Device) (r r' : Rack) : Prop :=
  ∀ slot, r'.holders.get? slot =
    if slot ∈ d.members ∧ r.holders.get? slot = some d.id then none else r.holders.get? slot

theorem attach_cases (r : Rack) (d : Device) :
    (∃ h, r.attach d = (true, { r with holders := h }) ∧ Takes d r { r with holders := h }) ∨
      r.attach d = (false, r) ∧ ∃ slot ∈ d.members, ∃ id, r.holders.get? slot = some id := by
  unfold attach
  split
  · rename_i hall
    simp only [List.all_eq_true, isFree_iff] at hall
    exact .inl ⟨_, rfl, hall, fun slot => get?_foldl_insert d.id slot d.members r.holders⟩
  · rename_i hsome
    simp only [List.all_eq_true, isFree_iff, not_forall] at hsome
    obtain ⟨slot, hslot, htaken⟩ := hsome
    exact .inr ⟨rfl, slot, hslot, Option.ne_none_iff_exists'.1 htaken⟩

theorem release_givesBack (r : Rack) (d : Device) : GivesBack d r (r.release d) := by
  intro slot
  rw [release, Dict.get?_foldl_erase]
  simp only [List.mem_filter, holds_iff]

/-- Attaching is refused exactly if a slot is in use. -/
theorem attach_eq_false : (r.attach d).1 = false ↔ ∃ slot ∈ d.members, ∃ id, r.holders.get? slot = some id := by
  rcases attach_cases r d with ⟨h, heq, htakes⟩ | ⟨heq, htaken⟩
  · rw [heq]
    refine ⟨nofun, ?_⟩
    rintro ⟨slot, hslot, id, hid⟩
    rw [htakes.free slot hslot] at hid
    cases hid
  · rw [heq]
    exact ⟨fun _ => htaken, fun _ => rfl⟩

/-! ### One slot after the other -/

/-- Takes slots for a device one after the other. Where one of them is in use, those taken before are given back. -/
def claim (r : Rack) (d : Device) (taken : List Nat) : List Nat → Bool × Rack
  | [] => (true, r)
  | slot :: rest =>
    if r.isFree slot then claim { r with holders := r.holders.insert slot d.id } d (taken ++ [slot]) rest
    else (false, r.release { d with members := taken })

theorem ext_holders (hd : r'.devices = r.devices) (hl : r'.leased = r.leased)
    (hh : ∀ slot, r'.holders.get? slot = r.holders.get? slot) : r' = r := by
  cases r
  cases r'
  cases hd
  cases hl
  cases Dict.ext_get? hh
  rfl

/-- What a claim that has got as far as `rest` comes to, told from the rack `r` before it. -/
theorem claim_rest (hd : d.members.Nodup) : ∀ {taken rest : List Nat} {r' : Rack}, d.members = taken ++ rest →
    (∀ slot ∈ taken, r.holders.get? slot = none) → r'.devices = r.devices → r'.leased = r.leased →
    (∀ slot, r'.holders.get? slot = if slot ∈ taken then some d.id else r.holders.get? slot) →
    claim r' d taken rest = r.attach d
  | taken, [], r', hmembers, hfree, hdev, hleased, hholders => by
    rw [List.append_nil] at hmembers
    have hall : d.members.all r.isFree = true := by
      rw [List.all_eq_true, hmembers]
      exact fun slot hslot => isFree_iff.2 (hfree slot hslot)
    rw [claim, attach, if_pos hall, Prod.mk.injEq]
    refine ⟨rfl, ext_holders hdev hleased fun slot => ?_⟩
    rw [hholders, ← hmembers]
    exact (get?_foldl_insert d.id slot d.members r.holders).symm
  | taken, slot :: rest, r', hmembers, hfree, hdev, hleased, hholders => by
    have hnew : slot ∉ taken := by
      rw [hmembers] at hd
      exact fun hmem => (List.nodup_append.1 hd).2.2 slot hmem slot (List.mem_cons_self ..) rfl
    have hslot : r'.holders.get? slot = r.holders.get? slot := by
      rw [hholders, if_neg hnew]
    rw [claim]
    split
    · rename_i hisFree
      rw [isFree_iff, hslot] at hisFree
      refine claim_rest hd (by rw [hmembers, List.append_assoc]; rfl) ?_ hdev hleased fun other => ?_
      · intro other hother
        rcases List.mem_append.1 hother with hother | hother
        · exact hfree other hother
        · rw [List.mem_singleton.1 hother]
          exact hisFree
      · rw [Dict.get?_insert, hholders]
        by_cases hother : slot = other
        · simp [hother]
        · simp [hother, Ne.symm hother]
    · rename_i hused
      -- the slots taken so far were free, so giving them back leaves them as they were
      have hnotAll : ¬ d.members.all r.isFree = true := by
        rw [isFree_iff, hslot] at hused
        rw [List.all_eq_true]
        exact fun hall => hused (isFree_iff.1 (hall slot (by rw [hmembers]; simp)))
      rw [attach, if_neg hnotAll, Prod.mk.injEq]
      refine ⟨rfl, ext_holders hdev hleased fun other => ?_⟩
      rw [release_givesBack r' { d with members := taken } other, hholders]
      by_cases hother : other ∈ taken
      · simp [hother, hfree other hother]
      · simp [hother]

/-- Claiming one slot after the other, and giving back what was taken if one is in use, is attaching. -/
theorem claim_eq_attach (hd : d.members.Nodup) : r.claim d [] d.members = r.attach d :=
  claim_rest hd rfl nofun rfl rfl fun _ => by simp

/-! ## Devices -/

/-- What is used of the devices of a rack of chips. -/
structure Distinct (devices : List Device) : Prop where
  id_inj : ∀ d ∈ devices, ∀ d' ∈ devices, d.id = d'.id → d = d'
  exclusive : ∀ d ∈ devices, d.isExclusive = true
  members_nodup : ∀ d ∈ devices, d.members.Nodup

theorem distinct_ofChips (count tiles : Nat) : Distinct (ofChips count tiles).devices := by
  have hdevice : ∀ d ∈ (ofChips count tiles).devices, ∃ members id,
      ((sizes count).flatMap (groups count))[id]? = some members ∧ d = accelerator tiles id members := by
    intro d hd
    obtain ⟨⟨members, id⟩, hmem, rfl⟩ := List.mem_map.1 hd
    exact ⟨members, id, List.mk_mem_zipIdx_iff_getElem?.1 hmem, rfl⟩
  refine ⟨fun d hd d' hd' hid => ?_, fun d hd => ?_, fun d hd => ?_⟩
  · obtain ⟨members, id, hget, rfl⟩ := hdevice d hd
    obtain ⟨members', id', hget', rfl⟩ := hdevice d' hd'
    obtain rfl : id = id' := hid
    rw [hget, Option.some.injEq] at hget'
    rw [hget']
  · obtain ⟨members, id, -, rfl⟩ := hdevice d hd
    rfl
  · obtain ⟨members, id, hget, rfl⟩ := hdevice d hd
    obtain ⟨size, -, hgroup⟩ := List.mem_flatMap.1 (List.mem_of_getElem? hget)
    obtain ⟨i, -, rfl⟩ := List.mem_map.1 hgroup
    exact List.nodup_range.map fun _ _ => Nat.add_left_cancel

/-! ## Calls -/

/-- A rack with the leases on its devices that have not ended. -/
structure Usage where
  rack : Rack
  leases : List Device := []

/-- A call on the devices of a rack. -/
inductive Call where
  | attach (d : Device)
  | detach (d : Device)
  | acquire (id : Nat)
  | acquireAny (q : Request) (tiles : Nat)
  | lease (d : Device)
  | endLease (d : Device)

namespace Usage

/-- Whether a call does what it is asked for, and what it leaves. -/
def perform (s : Usage) : Call → Bool × Usage
  | .attach d => ((s.rack.attach d).1, { s with rack := (s.rack.attach d).2 })
  | .detach d => ((s.rack.detach d).1, { s with rack := (s.rack.detach d).2 })
  | .acquire id =>
    match s.rack.acquire id with
    | .ok (_, rack) => (true, { s with rack })
    | .error _ => (false, s)
  | .acquireAny q tiles =>
    ((s.rack.acquireAny q tiles).1.isSome, { s with rack := (s.rack.acquireAny q tiles).2 })
  | .lease d =>
    match s.rack.lease d with
    | .ok (taken, rack) => (true, { rack, leases := if taken then d :: s.leases else s.leases })
    | .error _ => (false, s)
  | .endLease d => (true, { rack := s.rack.endLease d, leases := s.leases.erase d })

/-- Calls are made on devices of the rack, and a lease ends once. -/
def Permits (s : Usage) : Call → Prop
  | .attach d | .detach d | .lease d => d ∈ s.rack.devices
  | .acquire _ | .acquireAny _ _ => True
  | .endLease d => d ∈ s.leases

/-- What calls, one after the other, make of a rack of chips. -/
inductive Reached (count tiles : Nat) : Usage → Prop
  | start : Reached count tiles { rack := ofChips count tiles }
  | perform {s : Usage} {call : Call} (h : Reached count tiles s) (hc : s.Permits call) :
      Reached count tiles (s.perform call).2

variable {s s' : Usage} {call : Call} {done : Bool}

/-- What a call can do: nothing, take the slots of a device that are free, detach a device that is not leased, lease a
device that is not leased and is attached by then, or end the lease of a device. -/
inductive Effect (s : Usage) : Call → Bool → Usage → Prop
  | same (call : Call) (done : Bool) : Effect s call done s
  | taken {call : Call} {d : Device} {h : Dict Nat Nat} (hd : d ∈ s.rack.devices)
      (ht : Takes d s.rack { s.rack with holders := h }) :
      Effect s call true { s with rack := { s.rack with holders := h } }
  | detached {d : Device} (hfree : s.rack.isLeased d = false) :
      Effect s (.detach d) true { s with rack := s.rack.release d }
  | leased {d : Device} {h : Dict Nat Nat} (hfree : s.rack.isLeased d = false)
      (ht : h = s.rack.holders ∧ s.rack.isAttached d = true ∨ Takes d s.rack { s.rack with holders := h }) :
      Effect s (.lease d) true
        { rack := { s.rack with holders := h, leased := s.rack.leased.insert d.id }, leases := d :: s.leases }
  | ended {d : Device} :
      Effect s (.endLease d) true { rack := s.rack.endLease d, leases := s.leases.erase d }

theorem acquire_ok {id : Nat} {a : Device × Rack} (h : r.acquire id = .ok a) : ∃ h, a.1 ∈ r.devices ∧
    a.2 = { r with holders := h } ∧ Takes a.1 r { r with holders := h } := by
  obtain ⟨d, hfind, h⟩ := Outcome.bind_eq_ok.1 h
  rw [Outcome.orFail_eq_ok] at hfind
  rcases attach_cases r d with ⟨holders, heq, htakes⟩ | ⟨heq, -⟩
  · rw [heq] at h
    cases h
    exact ⟨holders, List.mem_of_find?_eq_some hfind, rfl, htakes⟩
  · rw [heq] at h
    cases h

theorem effect_attach (hd : d ∈ s.rack.devices) (call : Call) :
    Effect s call (s.rack.attach d).1 { s with rack := (s.rack.attach d).2 } := by
  rcases attach_cases s.rack d with ⟨h, heq, htakes⟩ | ⟨heq, -⟩
  · rw [heq]
    exact .taken hd htakes
  · rw [heq]
    exact .same call false

theorem perform_effect (hdev : Distinct s.rack.devices) (hc : s.Permits call) :
    Effect s call (s.perform call).1 (s.perform call).2 := by
  cases call with
  | attach d => exact effect_attach hc _
  | detach d =>
    rw [perform, Rack.detach]
    split
    · exact .same _ _
    · rename_i hfree
      exact .detached (by simpa using hfree)
  | acquire id =>
    rw [perform]
    split
    · rename_i hok
      obtain ⟨h, hmem, rfl, htakes⟩ := acquire_ok hok
      exact .taken hmem htakes
    · exact .same _ _
  | acquireAny q tiles =>
    rw [perform, acquireAny]
    split
    · rename_i d hfind
      have hmem := List.mem_of_mem_filter (List.mem_of_find?_eq_some hfind)
      have hdone := List.find?_some hfind
      rw [Bool.and_eq_true] at hdone
      have heffect := effect_attach hmem (.acquireAny q tiles)
      rw [hdone.2] at heffect
      exact heffect
    · exact .same _ _
  | lease d =>
    rw [perform, Rack.lease, if_pos (hdev.exclusive d hc)]
    by_cases hleased : s.rack.isLeased d = true
    · rw [if_pos hleased]
      exact .same _ _
    · rw [if_neg hleased, ensureAttached]
      rw [Bool.not_eq_true] at hleased
      by_cases hattached : s.rack.isAttached d = true
      · rw [if_pos hattached]
        exact .leased hleased (.inl ⟨rfl, hattached⟩)
      · rw [if_neg hattached]
        rcases attach_cases s.rack d with ⟨h, heq, htakes⟩ | ⟨heq, -⟩
        · rw [heq]
          exact .leased hleased (.inr htakes)
        · rw [heq]
          exact .same _ _
  | endLease d => exact .ended

/-! ## The invariant -/

/-- Who holds what: a slot in use names a device that holds all its slots, attached devices have no slot in common, a
leased device is attached and has exactly one lease, and leases are on leased devices. -/
structure Exclusive (s : Usage) : Prop where
  held : ∀ slot id, s.rack.holders.get? slot = some id →
    ∃ d ∈ s.rack.devices, d.id = id ∧ slot ∈ d.members ∧ s.rack.isAttached d = true
  disjoint : ∀ d ∈ s.rack.devices, ∀ d' ∈ s.rack.devices, d ≠ d' → s.rack.isAttached d = true →
    s.rack.isAttached d' = true → d.members.Disjoint d'.members
  leased : ∀ d ∈ s.rack.devices, s.rack.isLeased d = true → s.rack.isAttached d = true ∧ s.leases.count d = 1
  live : ∀ d ∈ s.leases, d ∈ s.rack.devices ∧ s.rack.isLeased d = true

namespace Exclusive

/-- Attached devices have no slot in common because a slot has one holder. -/
theorem disjoint_of_distinct (hdev : Distinct r.devices) (hd : d ∈ r.devices) (hd' : d' ∈ r.devices) (hne : d ≠ d')
    (h : r.isAttached d = true) (h' : r.isAttached d' = true) : d.members.Disjoint d'.members := by
  intro slot hslot hslot'
  have hid := (isAttached_iff.1 h slot hslot).symm.trans (isAttached_iff.1 h' slot hslot')
  exact hne (hdev.id_inj d hd d' hd' (Option.some.inj hid))

theorem start (count tiles : Nat) : Exclusive { rack := ofChips count tiles } where
  held slot id hslot := by cases hslot
  disjoint d hd d' hd' hne h h' := disjoint_of_distinct (distinct_ofChips count tiles) hd hd' hne h h'
  leased d hd h := by cases h
  live d hd := by cases hd

/-- Where a device takes its slots, the others keep theirs. -/
theorem isAttached_of_takes {h : Dict Nat Nat} (ht : Takes d r { r with holders := h })
    (ha : r.isAttached d' = true) : ({ r with holders := h } : Rack).isAttached d' = true := by
  rw [isAttached_iff] at ha ⊢
  intro slot hslot
  rw [ht.holders, if_neg]
  · exact ha slot hslot
  · intro hmem
    have hfree := ht.free slot hmem
    rw [ha slot hslot] at hfree
    cases hfree

theorem isAttached_self_of_takes {h : Dict Nat Nat} (ht : Takes d r { r with holders := h }) :
    ({ r with holders := h } : Rack).isAttached d = true := by
  rw [isAttached_iff]
  intro slot hslot
  rw [ht.holders, if_pos hslot]

theorem held_of_takes {h : Dict Nat Nat} (hs : s.Exclusive) (hd : d ∈ s.rack.devices)
    (ht : Takes d s.rack { s.rack with holders := h }) : ∀ slot id, h.get? slot = some id →
    ∃ d' ∈ s.rack.devices, d'.id = id ∧ slot ∈ d'.members ∧
      ({ s.rack with holders := h } : Rack).isAttached d' = true := by
  intro slot id hslot
  have hholders := ht.holders slot
  simp only at hholders
  rw [hslot] at hholders
  split at hholders
  · rename_i hmem
    exact ⟨d, hd, (Option.some.inj hholders).symm, hmem, isAttached_self_of_takes ht⟩
  · obtain ⟨d', hd', hid, hmem, ha⟩ := hs.held slot id hholders.symm
    exact ⟨d', hd', hid, hmem, isAttached_of_takes ht ha⟩

/-- Where a device gives back its slots, the others keep theirs. -/
theorem isAttached_of_givesBack (hdev : Distinct r.devices) (hd : d ∈ r.devices) (hd' : d' ∈ r.devices) (hne : d ≠ d')
    (hg : GivesBack d r r') (ha : r.isAttached d' = true) : r'.isAttached d' = true := by
  rw [isAttached_iff] at ha ⊢
  intro slot hslot
  rw [hg, if_neg]
  · exact ha slot hslot
  · rintro ⟨-, hself⟩
    rw [ha slot hslot] at hself
    exact hne (hdev.id_inj d hd d' hd' (Option.some.inj hself).symm)

theorem held_of_givesBack (hs : s.Exclusive) (hdev : Distinct s.rack.devices) (hd : d ∈ s.rack.devices)
    (hg : GivesBack d s.rack r') : ∀ slot id, r'.holders.get? slot = some id →
    ∃ d' ∈ s.rack.devices, d'.id = id ∧ slot ∈ d'.members ∧ r'.isAttached d' = true := by
  intro slot id hslot
  rw [hg] at hslot
  split at hslot
  · cases hslot
  · rename_i hkept
    obtain ⟨d', hd', rfl, hmem, ha⟩ := hs.held slot id hslot
    refine ⟨d', hd', rfl, hmem, isAttached_of_givesBack hdev hd hd' ?_ hg ha⟩
    rintro rfl
    exact hkept ⟨hmem, hslot⟩

/-- Slots are taken. -/
theorem taken {h : Dict Nat Nat} (hs : s.Exclusive) (hdev : Distinct s.rack.devices) (hd : d ∈ s.rack.devices)
    (ht : Takes d s.rack { s.rack with holders := h }) : Exclusive { s with rack := { s.rack with holders := h } } where
  held := held_of_takes (s := s) hs hd ht
  disjoint _ h₁ _ h₂ := disjoint_of_distinct hdev h₁ h₂
  leased d' hd' hl := (hs.leased d' hd' hl).imp_left (isAttached_of_takes ht)
  live := hs.live

/-- A device that is not leased is detached. -/
theorem detached (hs : s.Exclusive) (hdev : Distinct s.rack.devices) (hd : d ∈ s.rack.devices)
    (hfree : s.rack.isLeased d = false) : Exclusive { s with rack := s.rack.release d } where
  held := held_of_givesBack (s := s) hs hdev hd (release_givesBack s.rack d)
  disjoint _ h₁ _ h₂ := disjoint_of_distinct hdev h₁ h₂
  leased d' hd' hl := by
    have hne : d ≠ d' := by
      rintro rfl
      cases hfree.symm.trans hl
    exact (hs.leased d' hd' hl).imp_left (isAttached_of_givesBack hdev hd hd' hne (release_givesBack s.rack d))
  live := hs.live

/-- An attached device that is not leased gets a lease. -/
theorem granted (hs : s.Exclusive) (hdev : Distinct s.rack.devices) (hd : d ∈ s.rack.devices)
    (hattached : s.rack.isAttached d = true) (hfree : s.rack.isLeased d = false) :
    Exclusive { rack := { s.rack with leased := s.rack.leased.insert d.id }, leases := d :: s.leases } where
  held := hs.held
  disjoint := hs.disjoint
  leased d' hd' hl := by
    by_cases hdd : d' = d
    · -- the new lease is the only one on the device
      subst hdd
      have hnone : d' ∉ s.leases := fun hmem => by cases hfree.symm.trans (hs.live d' hmem).2
      exact ⟨hattached, by simp [List.count_eq_zero_of_not_mem hnone]⟩
    · have hold := (SortedSet.mem_insert.1 (isLeased_iff.1 hl)).resolve_left fun hid => hdd (hdev.id_inj d' hd' d hd hid)
      rw [List.count_cons_of_ne (Ne.symm hdd)]
      exact hs.leased d' hd' (isLeased_iff.2 hold)
  live d' hd' := by
    rw [isLeased_iff]
    rcases List.mem_cons.1 hd' with rfl | hmem
    · exact ⟨hd, SortedSet.mem_insert.2 (.inl rfl)⟩
    · exact (hs.live d' hmem).imp_right fun hl => SortedSet.mem_insert.2 (.inr (isLeased_iff.1 hl))

/-- The one lease on a device ends, and the device gives back its slots. -/
theorem ended (hs : s.Exclusive) (hdev : Distinct s.rack.devices) (hmem : d ∈ s.leases) :
    Exclusive { rack := s.rack.endLease d, leases := s.leases.erase d } := by
  obtain ⟨hd, hleased⟩ := hs.live d hmem
  have hg : GivesBack d s.rack (s.rack.endLease d) := release_givesBack s.rack d
  have hlast : d ∉ s.leases.erase d := by
    rw [← List.count_eq_zero, List.count_erase_self, (hs.leased d hd hleased).2]
  refine ⟨held_of_givesBack (s := s) hs hdev hd hg, fun _ h₁ _ h₂ => disjoint_of_distinct hdev h₁ h₂, fun d' hd' hl => ?_,
    fun d' hd' => ?_⟩
  · obtain ⟨hold, hid⟩ := SortedSet.mem_erase.1 (isLeased_iff.1 hl)
    have hne : d ≠ d' := fun heq => hid (congrArg Device.id heq).symm
    rw [List.count_erase_of_ne hne.symm]
    exact (hs.leased d' hd' (isLeased_iff.2 hold)).imp_left (isAttached_of_givesBack hdev hd hd' hne hg)
  · obtain ⟨hdev', hl'⟩ := hs.live d' (List.mem_of_mem_erase hd')
    refine ⟨hdev', isLeased_iff.2 (SortedSet.mem_erase.2 ⟨isLeased_iff.1 hl', fun hid => hlast ?_⟩)⟩
    exact hdev.id_inj d' hdev' d hd hid ▸ hd'

theorem effect (hs : s.Exclusive) (hdev : Distinct s.rack.devices) (hc : s.Permits call)
    (he : Effect s call done s') : s'.Exclusive ∧ s'.rack.devices = s.rack.devices := by
  cases he with
  | same => exact ⟨hs, rfl⟩
  | taken hd ht => exact ⟨hs.taken hdev hd ht, rfl⟩
  | detached hfree => exact ⟨hs.detached hdev hc hfree, rfl⟩
  | leased hfree ht =>
    rcases ht with ⟨rfl, hattached⟩ | ht
    · exact ⟨hs.granted hdev hc hattached hfree, rfl⟩
    · exact ⟨(hs.taken hdev hc ht).granted hdev hc (isAttached_self_of_takes ht) hfree, rfl⟩
  | ended => exact ⟨hs.ended hdev hc, rfl⟩

end Exclusive

theorem Reached.exclusive {count tiles : Nat} (h : Reached count tiles s) :
    s.Exclusive ∧ s.rack.devices = (ofChips count tiles).devices := by
  induction h with
  | start => exact ⟨.start count tiles, rfl⟩
  | perform _ hc ih =>
    obtain ⟨hs, hdev⟩ := ih
    have hdistinct := hdev ▸ distinct_ofChips count tiles
    obtain ⟨hs', hdev'⟩ := hs.effect hdistinct hc (perform_effect hdistinct hc)
    exact ⟨hs', hdev'.trans hdev⟩

/-! ## Who frees slots, and what a refusal leaves -/

theorem holds_of_takes {h : Dict Nat Nat} (ht : Takes d r { r with holders := h }) (hold : r.holds d' slot = true) :
    ({ r with holders := h } : Rack).holds d' slot = true := by
  rw [holds_iff] at hold ⊢
  rw [ht.holders, if_neg]
  · exact hold
  · intro hmem
    rw [ht.free slot hmem] at hold
    cases hold

/-- A device loses a slot only by its own `detach`, which needs it not to be leased, or by the end of its lease. -/
theorem frees_only_own (hs : s.Exclusive) (hdev : Distinct s.rack.devices) (hc : s.Permits call)
    (he : Effect s call done s') (hd : d ∈ s.rack.devices) (hold : s.rack.holds d slot = true)
    (hlost : s'.rack.holds d slot = false) :
    call = .detach d ∧ s.rack.isLeased d = false ∨ call = .endLease d := by
  have hgiver : ∀ {d' : Device} {r : Rack}, d' ∈ s.rack.devices → GivesBack d' s.rack r → r.holds d slot = false →
      d' = d := by
    intro d' r hd' hg hlost
    by_contra hne
    rw [← Bool.not_eq_true, holds_iff, hg, if_neg] at hlost
    · exact hlost (holds_iff.1 hold)
    · rintro ⟨-, hself⟩
      rw [holds_iff.1 hold] at hself
      exact hne (hdev.id_inj d' hd' d hd (Option.some.inj hself).symm)
  have hkept : ∀ {d' : Device} {h : Dict Nat Nat}, Takes d' s.rack { s.rack with holders := h } →
      ({ s.rack with holders := h } : Rack).holds d slot ≠ false := by
    intro d' h ht
    rw [holds_of_takes ht hold]
    nofun
  cases he with
  | same =>
    rw [hold] at hlost
    cases hlost
  | taken _ ht => exact absurd hlost (hkept ht)
  | detached hfree =>
    obtain rfl := hgiver hc (release_givesBack s.rack _) hlost
    exact .inl ⟨rfl, hfree⟩
  | leased _ ht =>
    rcases ht with ⟨rfl, -⟩ | ht
    · have hsame : s.rack.holds d slot = false := hlost
      rw [hold] at hsame
      cases hsame
    · exact absurd hlost (hkept ht)
  | ended =>
    obtain rfl := hgiver (hs.live _ hc).1 (release_givesBack s.rack _) hlost
    exact .inr rfl

theorem unchanged_of_refused (he : Effect s call done s') (h : done = false) : s' = s := by
  cases he with
  | same => rfl
  | taken | detached | leased | ended => cases h

/-- No device is found exactly if each one that meets the request has a slot that some device holds. -/
theorem acquireAny_eq_none (hs : s.Exclusive) (q : Request) (tiles : Nat) :
    (s.rack.acquireAny q tiles).1 = none ↔ ∀ d ∈ s.rack.matching q, tiles = 0 ∨ d.tiles = tiles →
      ∃ slot ∈ d.members, ∃ d' ∈ s.rack.devices, s.rack.holds d' slot = true := by
  have hnone : (s.rack.acquireAny q tiles).1 = none ↔ (s.rack.matching q).find?
      (fun d => (tiles == 0 || d.tiles == tiles) && (s.rack.attach d).1) = none := by
    rw [acquireAny]
    split <;> simp_all
  rw [hnone, List.find?_eq_none]
  refine forall₂_congr fun d hd => ?_
  rw [Bool.and_eq_true, Bool.or_eq_true, beq_iff_eq, beq_iff_eq, not_and, Bool.not_eq_true, attach_eq_false]
  refine imp_congr_right fun _ => ⟨?_, ?_⟩
  · rintro ⟨slot, hslot, id, hid⟩
    obtain ⟨d', hd', rfl, -, -⟩ := hs.held slot id hid
    exact ⟨slot, hslot, d', hd', holds_iff.2 hid⟩
  · rintro ⟨slot, hslot, d', -, hheld⟩
    exact ⟨slot, hslot, d'.id, holds_iff.1 hheld⟩

/-- Chips are used by one device at a time, whatever calls are made on the devices of a rack of any size: what holds
of slots and leases after each call, that only a device itself frees its slots, that a call that is refused changes
nothing, also where a device claims one slot after the other, and when a search for a free device finds none. -/
theorem chips_exclusive (count tiles : Nat) (s : Usage) (h : Reached count tiles s) :
    s.rack.devices = (ofChips count tiles).devices ∧ s.Exclusive ∧
      (∀ call, s.Permits call →
        (∀ d ∈ s.rack.devices, ∀ slot, s.rack.holds d slot = true → (s.perform call).2.rack.holds d slot = false →
          call = .detach d ∧ s.rack.isLeased d = false ∨ call = .endLease d) ∧
        ((s.perform call).1 = false → (s.perform call).2 = s)) ∧
      (∀ d ∈ s.rack.devices, s.rack.claim d [] d.members = s.rack.attach d) ∧
      ∀ q tiles, (s.rack.acquireAny q tiles).1 = none ↔ ∀ d ∈ s.rack.matching q, tiles = 0 ∨ d.tiles = tiles →
        ∃ slot ∈ d.members, ∃ d' ∈ s.rack.devices, s.rack.holds d' slot = true := by
  obtain ⟨hs, hdevices⟩ := h.exclusive
  have hdev : Distinct s.rack.devices := hdevices ▸ distinct_ofChips count tiles
  refine ⟨hdevices, hs, fun call hc => ⟨fun d hd slot => ?_, ?_⟩, fun d hd => ?_, ?_⟩
  · exact frees_only_own hs hdev hc (perform_effect hdev hc) hd
  · exact unchanged_of_refused (perform_effect hdev hc)
  · exact claim_eq_attach (hdev.members_nodup d hd)
  · exact fun q tiles => acquireAny_eq_none hs q tiles

/-- Three chips, of which the pair in front is leased. -/
def leasedPair : Usage := (({ rack := ofChips 3 8 } : Usage).perform (.lease (accelerator 8 3 [0, 1]))).2

/-- A pair is leased: its chips are not free on their own, it cannot be detached, and no other pair is found. -/
theorem chips_exclusive_leasedPair :
    Reached 3 8 leasedPair ∧ leasedPair.Exclusive ∧ leasedPair.rack.isLeased (accelerator 8 3 [0, 1]) = true ∧
      (leasedPair.perform (.attach (accelerator 8 0 [0]))).2 = leasedPair ∧
      (leasedPair.perform (.detach (accelerator 8 3 [0, 1]))).2 = leasedPair ∧
      (leasedPair.rack.acquireAny { ipus := 2 } 0).1 = none := by
  have hreached : Reached 3 8 leasedPair := .perform .start (by decide : accelerator 8 3 [0, 1] ∈ (ofChips 3 8).devices)
  obtain ⟨-, hs, hcalls, -, hnone⟩ := chips_exclusive 3 8 leasedPair hreached
  refine ⟨hreached, hs, by decide, (hcalls (.attach _) ?_).2 (by decide), (hcalls (.detach _) ?_).2 (by decide),
    (hnone _ _).2 (by decide)⟩
  · change accelerator 8 0 [0] ∈ leasedPair.rack.devices
    decide
  · change accelerator 8 3 [0, 1] ∈ leasedPair.rack.devices
    decide

end Usage

end Rack

end TensorGraph
