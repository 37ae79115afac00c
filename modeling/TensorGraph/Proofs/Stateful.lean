import Mathlib.Data.List.Forall2
import TensorGraph.Error.Basic

/-!
Runs of calls, step by step. A successful run of a sequence of calls splits into successful runs of its parts, with
the state that each of them leaves.
-/
namespace TensorGraph

namespace Outcome

variable {α β : Type}

theorem bind_eq_ok {x : Outcome α} {f : α → Outcome β} {b : β} :
    (x >>= f) = .ok b ↔ ∃ a, x = .ok a ∧ f a = .ok b := by
  cases x with
  | error e => exact ⟨nofun, nofun⟩
  | ok a =>
    refine ⟨fun h => ⟨a, rfl, h⟩, ?_⟩
    rintro ⟨a', h, hf⟩
    cases h
    exact hf

theorem bind_eq_error {x : Outcome α} {f : α → Outcome β} {e : Failure} :
    (x >>= f) = .error e ↔ x = .error e ∨ ∃ a, x = .ok a ∧ f a = .error e := by
  cases x with
  | error e' => exact ⟨fun h => .inl (congrArg Except.error (Except.error.inj h)), fun h => h.elim
      (fun h => congrArg Except.error (Except.error.inj h)) fun h => by obtain ⟨_, h, -⟩ := h; cases h⟩
  | ok a =>
    refine ⟨fun h => .inr ⟨a, rfl, h⟩, ?_⟩
    rintro (h | ⟨a', h, hf⟩)
    · cases h
    · cases h
      exact hf

theorem orFail_eq_ok {o : Option α} {e : Error} {a : α} : orFail o e = .ok a ↔ o = some a := by
  cases o with
  | none => simp [orFail, fail]
  | some b => simp [orFail]

theorem promised_eq_ok {o : Option α} {a : α} : promised o = .ok a ↔ o = some a := by
  cases o <;> simp [promised]

theorem asExecution_eq_ok {o : Outcome α} {a : α} : o.asExecution = .ok a ↔ o = .ok a := by
  unfold asExecution
  split
  · exact ⟨nofun, nofun⟩
  · exact Iff.rfl

theorem mapM_eq_ok {f : α → Outcome β} :
    ∀ {l : List α} {m : List β}, l.mapM f = .ok m ↔ List.Forall₂ (fun a b => f a = .ok b) l m
  | [], m => by
    rw [List.mapM_nil]
    constructor
    · intro h
      cases h
      exact .nil
    · rintro (_ | _)
      rfl
  | a :: l, m => by
    rw [List.mapM_cons]
    constructor
    · intro h
      obtain ⟨b, hb, h⟩ := bind_eq_ok.1 h
      obtain ⟨m', hm, h⟩ := bind_eq_ok.1 h
      cases h
      exact .cons hb (mapM_eq_ok.1 hm)
    · rintro (_ | ⟨hb, hm⟩)
      exact bind_eq_ok.2 ⟨_, hb, bind_eq_ok.2 ⟨_, mapM_eq_ok.2 hm, rfl⟩⟩

theorem mapM_of_forall {f : α → Outcome β} {w : α → β} {l : List α} (h : ∀ a ∈ l, f a = .ok (w a)) :
    l.mapM f = .ok (l.map w) := mapM_eq_ok.2 (List.forall₂_map_right_iff.2 (List.forall₂_same.2 h))

/-- A list of calls succeeds, or ends in the failure of one of them. -/
theorem mapM_cases (f : α → Outcome β) : ∀ l : List α,
    (∃ m, l.mapM f = .ok m) ∨ ∃ a ∈ l, ∃ e, f a = .error e ∧ l.mapM f = .error e
  | [] => .inl ⟨[], rfl⟩
  | a :: l => by
    rw [List.mapM_cons]
    cases ha : f a with
    | error e => exact .inr ⟨a, List.mem_cons_self, e, ha, rfl⟩
    | ok b =>
      rcases mapM_cases f l with ⟨m, hm⟩ | ⟨a', ha', e, he, hl⟩
      · exact .inl ⟨b :: m, by rw [hm]; rfl⟩
      · exact .inr ⟨a', List.mem_cons_of_mem a ha', e, he, by rw [hl]; rfl⟩

/-- Only what successful calls give needs to be known. -/
theorem map_eq_of_mapM {γ : Type} {f : α → Outcome β} {φ : β → γ} {w : α → γ} : ∀ {l : List α} {m : List β},
    (∀ a ∈ l, ∀ b, f a = .ok b → φ b = w a) → l.mapM f = .ok m → m.map φ = l.map w
  | [], _, _, h => by
    cases mapM_eq_ok.1 h
    rfl
  | a :: l, _, hw, h => by
    obtain _ | ⟨hb, hm⟩ := mapM_eq_ok.1 h
    rw [List.map_cons, List.map_cons, hw a (by simp) _ hb,
      map_eq_of_mapM (fun b hb => hw b (List.mem_cons_of_mem _ hb)) (mapM_eq_ok.2 hm)]

theorem eq_map_of_mapM {f : α → Outcome β} {w : α → β} {l : List α} {m : List β}
    (hw : ∀ a ∈ l, ∀ b, f a = .ok b → b = w a) (h : l.mapM f = .ok m) : m = l.map w :=
  (List.map_id m).symm.trans (map_eq_of_mapM hw h)

/-- A loop succeeds exactly if all its calls do. -/
theorem forM_eq_ok {f : α → Outcome PUnit} : ∀ {l : List α}, l.forM f = .ok ⟨⟩ ↔ ∀ a ∈ l, f a = .ok ⟨⟩
  | [] => by simp [pure, Except.pure]
  | a :: l => by
    change (f a >>= fun _ => l.forM f) = .ok ⟨⟩ ↔ _
    rw [bind_eq_ok, List.forall_mem_cons]
    exact ⟨fun ⟨_, ha, hl⟩ => ⟨ha, forM_eq_ok.1 hl⟩, fun ⟨ha, hl⟩ => ⟨_, ha, forM_eq_ok.2 hl⟩⟩

theorem exists_of_isOk {x : Outcome α} (h : x.isOk = true) : ∃ a, x = .ok a := by
  cases x with
  | ok a => exact ⟨a, rfl⟩
  | error e => exact absurd h Bool.false_ne_true

/-- What every call of a fold keeps, the whole fold keeps. -/
theorem foldlM_keeps {f : β → α → Outcome β} (P : β → Prop) :
    ∀ {l : List α} {b b' : β}, (∀ a ∈ l, ∀ {b b'}, P b → f b a = .ok b' → P b') → P b → l.foldlM f b = .ok b' → P b'
  | [], b, b', _, hb, h => by
    cases h
    exact hb
  | a :: l, b, b', hf, hb, h => by
    rw [List.foldlM_cons] at h
    obtain ⟨c, hc, h⟩ := bind_eq_ok.1 h
    exact foldlM_keeps P (fun a ha => hf a (List.mem_cons_of_mem _ ha)) (hf a (List.mem_cons_self ..) hb hc) h

/-- A call that does not end with a certain failure. -/
def Never (f : Failure) (x : Outcome α) : Prop := x ≠ .error f

namespace Never

variable {f : Failure}

theorem ok (a : α) : Never f (.ok a) := fun h => by cases h

theorem abort (hf : f ≠ .abort) : Never (α := α) f (.error .abort) := fun h => hf (Except.error.inj h).symm

theorem fail {e : Error} (hf : f ≠ .error e) : Never f (.fail e : Outcome α) := fun h => hf (Except.error.inj h).symm

theorem orFail {o : Option α} {e : Error} (hf : f ≠ .error e) : Never f (.orFail o e) := by
  cases o with
  | none => exact fail hf
  | some a => exact ok a

theorem promised {o : Option α} (hf : f ≠ .abort) : Never f (.promised o) := by
  cases o with
  | none => exact abort hf
  | some a => exact ok a

theorem ite {c : Prop} [Decidable c] {x y : Outcome α} (hx : Never f x) (hy : Never f y) : Never f (if c then x else y) := by
  split
  · exact hx
  · exact hy

theorem bind {x : Outcome α} {k : α → Outcome β} (hx : Never f x) (hk : ∀ a, Never f (k a)) : Never f (x >>= k) := by
  intro h
  rcases bind_eq_error.1 h with h | ⟨a, -, h⟩
  · exact hx h
  · exact hk a h

theorem mapM {k : α → Outcome β} : ∀ {l : List α}, (∀ a, Never f (k a)) → Never f (l.mapM k)
  | [], _ => ok []
  | a :: l, hk => by
    rw [List.mapM_cons]
    exact bind (hk a) fun b => bind (mapM (l := l) hk) fun bs => ok _

end Never

end Outcome

namespace Stateful

variable {σ τ α β : Type}

@[simp] theorem run_pure (a : α) (s : σ) : (pure a : Stateful σ α).run s = (.ok a, s) := rfl

@[simp] theorem run_get (s : σ) : (get : Stateful σ σ).run s = (.ok s, s) := rfl

@[simp] theorem run_set (t s : σ) : (set t : Stateful σ PUnit).run s = (.ok ⟨⟩, t) := rfl

@[simp] theorem run_modify (f : σ → σ) (s : σ) : (modify f : Stateful σ PUnit).run s = (.ok ⟨⟩, f s) := rfl

@[simp] theorem run_fail (e : Error) (s : σ) : (fail e : Stateful σ α).run s = (.error (.error e), s) := rfl

@[simp] theorem run_lift (o : Outcome α) (s : σ) : (lift o : Stateful σ α).run s = (o, s) := rfl

@[simp] theorem run_liftM (o : Outcome α) (s : σ) : (liftM o : Stateful σ α).run s = (o, s) := rfl

theorem run_bind (x : Stateful σ α) (f : α → Stateful σ β) (s : σ) :
    (x >>= f).run s =
      match x.run s with
      | (.ok a, t) => (f a).run t
      | (.error e, t) => (.error e, t) := by
  change (ExceptT.bindCont f (x s).1 (x s).2) = _
  rcases h : x s with ⟨r, t⟩
  have h' : x.run s = (r, t) := h
  rw [h']
  cases r <;> rfl

/-- A sequence of two calls succeeds exactly if both do. -/
theorem run_bind_ok {x : Stateful σ α} {f : α → Stateful σ β} {s t : σ} {b : β} :
    (x >>= f).run s = (.ok b, t) ↔ ∃ a u, x.run s = (.ok a, u) ∧ (f a).run u = (.ok b, t) := by
  rw [run_bind]
  rcases h : x.run s with ⟨r | a, u⟩
  · simp
  · simp only [Prod.mk.injEq, Except.ok.injEq]
    exact ⟨fun hb => ⟨a, u, ⟨rfl, rfl⟩, hb⟩, fun ⟨a', u', ⟨e1, e2⟩, hb⟩ => by subst e1 e2; exact hb⟩

/-- What reads the state goes on with it. -/
theorem of_get_bind {f : σ → Stateful σ β} {s : σ} {r : Outcome β × σ} (h : (get >>= f).run s = r) :
    (f s).run s = r := h

/-- A sequence that starts with a computation without state succeeds exactly if that does, and the rest. -/
theorem run_liftM_bind_ok {o : Outcome α} {f : α → Stateful σ β} {s t : σ} {b : β} :
    ((liftM o : Stateful σ α) >>= f).run s = (.ok b, t) ↔ ∃ a, o = .ok a ∧ (f a).run s = (.ok b, t) := by
  rw [run_bind_ok]
  constructor
  · rintro ⟨a, u, ho, h⟩
    rw [run_liftM, Prod.mk.injEq] at ho
    obtain ⟨ho, rfl⟩ := ho
    exact ⟨a, ho, h⟩
  · rintro ⟨a, rfl, h⟩
    exact ⟨a, s, rfl, h⟩

theorem run_bind_error {x : Stateful σ α} {f : α → Stateful σ β} {s t : σ} {e : Failure} (h : x.run s = (.error e, t)) :
    (x >>= f).run s = (.error e, t) := by rw [run_bind, h]

/-- Two sequences run alike if their parts do, from the states that they reach. -/
theorem run_bind_congr {x y : Stateful σ α} {f h : α → Stateful σ β} {s : σ} (hx : x.run s = y.run s)
    (hf : ∀ a t, y.run s = (.ok a, t) → (f a).run t = (h a).run t) : (x >>= f).run s = (y >>= h).run s := by
  rw [run_bind, run_bind, hx]
  rcases hy : y.run s with ⟨e | a, t⟩
  · rfl
  · exact hf a t hy

theorem eq_ok_of_fst {x : Outcome α × σ} {a : α} (h : x.1 = .ok a) : x = (.ok a, x.2) := Prod.ext h rfl

theorem run_change (f : σ → Outcome (α × σ)) (s : σ) :
    (change f).run s =
      match f s with
      | .ok (a, t) => (.ok a, t)
      | .error e => (.error e, s) := rfl

theorem run_change_ok {f : σ → Outcome (α × σ)} {s t : σ} {a : α} :
    (change f).run s = (.ok a, t) ↔ f s = .ok (a, t) := by
  rw [run_change]
  rcases f s with e | ⟨a', t'⟩ <;> simp

theorem run_change_error {f : σ → Outcome (α × σ)} {s t : σ} {e : Failure} :
    (change f).run s = (.error e, t) ↔ f s = .error e ∧ t = s := by
  rw [run_change]
  rcases f s with e | ⟨a', t'⟩ <;> simp [eq_comm]

theorem run_focus (get : τ → σ) (set : σ → τ → τ) (x : Stateful σ α) (t : τ) :
    (focus get set x).run t = ((x.run (get t)).1, set (x.run (get t)).2 t) := rfl

@[simp] theorem run_forM_nil (f : α → Stateful σ PUnit) (s : σ) :
    (([] : List α).forM f).run s = (.ok ⟨⟩, s) := rfl

theorem forM_cons (f : α → Stateful σ PUnit) (a : α) (l : List α) :
    (a :: l).forM f = f a >>= fun _ => l.forM f := rfl

/-- What every call of a loop keeps, the whole loop keeps. -/
theorem run_forM_keeps {f : α → Stateful σ PUnit} (P : σ → Prop) :
    ∀ {l : List α} {s t : σ}, (∀ a ∈ l, ∀ {s t : σ}, P s → (f a).run s = (.ok ⟨⟩, t) → P t) →
      P s → (l.forM f).run s = (.ok ⟨⟩, t) → P t
  | [], s, t, _, hs, h => by cases h; exact hs
  | a :: l, s, t, hf, hs, h => by
    obtain ⟨_, u, h1, h2⟩ := run_bind_ok.1 h
    exact run_forM_keeps P (fun b hb => hf b (List.mem_cons_of_mem _ hb)) (hf a (List.mem_cons_self ..) hs h1) h2

theorem run_foldlM_keeps {f : β → α → Stateful σ β} (P : σ → Prop) :
    ∀ {l : List α} {b c : β} {s t : σ}, (∀ a ∈ l, ∀ {b c : β} {s t : σ}, P s → (f b a).run s = (.ok c, t) → P t) →
      P s → (l.foldlM f b).run s = (.ok c, t) → P t
  | [], _, _, _, _, _, hs, h => by cases h; exact hs
  | a :: l, _, _, _, _, hf, hs, h => by
    rw [List.foldlM_cons] at h
    obtain ⟨_, u, h1, h2⟩ := run_bind_ok.1 h
    exact run_foldlM_keeps P (fun b hb => hf b (List.mem_cons_of_mem _ hb)) (hf a (List.mem_cons_self ..) hs h1) h2

/-! ## What a call keeps, also if it fails -/

/-- A call keeps a property of the state, whatever its outcome. -/
def Keeps (P : σ → Prop) (x : Stateful σ α) : Prop := ∀ s, P s → P (x.run s).2

namespace Keeps

variable {P : σ → Prop}

theorem lift (o : Outcome α) : Keeps P (Stateful.lift o : Stateful σ α) := fun _ hs => hs

theorem liftM (o : Outcome α) : Keeps P (liftM o : Stateful σ α) := fun _ hs => hs

theorem fail (e : Error) : Keeps P (Stateful.fail e : Stateful σ α) := fun _ hs => hs

theorem pure (a : α) : Keeps P (pure a : Stateful σ α) := fun _ hs => hs

theorem modify {f : σ → σ} (hf : ∀ s, P s → P (f s)) : Keeps P (modify f : Stateful σ PUnit) := fun s hs => hf s hs

theorem bind {x : Stateful σ α} {f : α → Stateful σ β} (hx : Keeps P x) (hf : ∀ a, Keeps P (f a)) :
    Keeps P (x >>= f) := by
  intro s hs
  have hx := hx s hs
  rw [run_bind]
  rcases h : x.run s with ⟨e | a, t⟩ <;> rw [h] at hx
  · exact hx
  · exact hf a t hx

theorem change {f : σ → Outcome (α × σ)} (hf : ∀ {s a t}, P s → f s = .ok (a, t) → P t) : Keeps P (change f) := by
  intro s hs
  rw [run_change]
  cases h : f s with
  | error _ => exact hs
  | ok r => exact hf hs h

/-- The state that a call reads satisfies what is kept. -/
theorem get_bind {f : σ → Stateful σ β} (hf : ∀ s, P s → Keeps P (f s)) : Keeps P (get >>= f) :=
  fun s hs => hf s hs s hs

theorem forM {f : α → Stateful σ PUnit} : ∀ {l : List α}, (∀ a ∈ l, Keeps P (f a)) → Keeps P (l.forM f)
  | [], _ => fun _ hs => hs
  | a :: l, hf => bind (hf a (by simp)) fun _ => forM fun b hb => hf b (List.mem_cons_of_mem _ hb)

theorem foldlM {f : β → α → Stateful σ β} : ∀ {l : List α} {b : β}, (∀ a ∈ l, ∀ b, Keeps P (f b a)) → Keeps P (l.foldlM f b)
  | [], b, _ => .pure b
  | a :: l, b, hf => by
    rw [List.foldlM_cons]
    exact .bind (hf a (by simp) b) fun b' => foldlM fun a' ha' => hf a' (List.mem_cons_of_mem _ ha')

/-- What comes after a result is only asked for where there is one. -/
theorem liftM_bind {o : Outcome α} {f : α → Stateful σ β} (hf : ∀ a, o = .ok a → Keeps P (f a)) :
    Keeps P ((MonadLiftT.monadLift o : Stateful σ α) >>= f) := by
  intro s hs
  rw [run_bind]
  cases o with
  | error _ => exact hs
  | ok a => exact hf a rfl s hs

end Keeps

/-! ## Calls on two states -/

/-- Two calls give the same results on related states, and leave related states. -/
def Alike (R : σ → τ → Prop) (x : Stateful σ α) (y : Stateful τ α) : Prop :=
  ∀ s t, R s t → (x.run s).1 = (y.run t).1 ∧ R (x.run s).2 (y.run t).2

namespace Alike

variable {R : σ → τ → Prop}

theorem lift (o : Outcome α) : Alike R (Stateful.lift o) (Stateful.lift o) := fun _ _ h => ⟨rfl, h⟩

theorem liftM (o : Outcome α) : Alike R (liftM o : Stateful σ α) (liftM o : Stateful τ α) := fun _ _ h => ⟨rfl, h⟩

theorem fail (e : Error) : Alike R (Stateful.fail e : Stateful σ α) (Stateful.fail e) := fun _ _ h => ⟨rfl, h⟩

theorem modify {f : σ → σ} {g : τ → τ} (hf : ∀ s t, R s t → R (f s) (g t)) :
    Alike R (modify f : Stateful σ PUnit) (modify g) := fun s t h => ⟨rfl, hf s t h⟩

theorem bind {x : Stateful σ α} {y : Stateful τ α} {f : α → Stateful σ β} {g : α → Stateful τ β} (hx : Alike R x y)
    (hf : ∀ a, Alike R (f a) (g a)) : Alike R (x >>= f) (y >>= g) := by
  intro s t h
  obtain ⟨hout, hstate⟩ := hx s t h
  rw [run_bind, run_bind]
  rcases hxs : x.run s with ⟨e | a, s'⟩ <;> rcases hyt : y.run t with ⟨e' | a', t'⟩ <;> rw [hxs, hyt] at hout hstate
  · exact ⟨congrArg Except.error (Except.error.inj hout), hstate⟩
  · cases hout
  · cases hout
  · cases hout
    exact hf a s' t' hstate

/-- The states that two calls read are related. -/
theorem get_bind {f : σ → Stateful σ β} {g : τ → Stateful τ β} (hf : ∀ s t, R s t → Alike R (f s) (g t)) :
    Alike R (get >>= f) (get >>= g) := fun s t h => hf s t h s t h

theorem forM {f : α → Stateful σ PUnit} {g : α → Stateful τ PUnit} : ∀ {l : List α},
    (∀ a ∈ l, Alike R (f a) (g a)) → Alike R (l.forM f) (l.forM g)
  | [], _ => fun _ _ h => ⟨rfl, h⟩
  | a :: l, hf => bind (hf a (by simp)) fun _ => forM fun b hb => hf b (List.mem_cons_of_mem _ hb)

theorem run_ok {x : Stateful σ α} {y : Stateful τ α} (h : Alike R x y) {s s' : σ} {t : τ} {a : α} (hR : R s t)
    (hx : x.run s = (.ok a, s')) : ∃ t', y.run t = (.ok a, t') ∧ R s' t' := by
  obtain ⟨hout, hstate⟩ := h s t hR
  rw [hx] at hout hstate
  exact ⟨_, eq_ok_of_fst hout.symm, hstate⟩

end Alike

/-! ## How a call ends -/

/-- The ends of a call from a state: its result and the state it leaves are in `Q`, or its failure and that state are
in `E`. -/
structure Ends (Q : α → σ → Prop) (E : Failure → σ → Prop) (x : Stateful σ α) (s : σ) : Prop where
  ok : ∀ {a t}, x.run s = (.ok a, t) → Q a t
  error : ∀ {f t}, x.run s = (.error f, t) → E f t

namespace Ends

variable {Q : α → σ → Prop} {R : β → σ → Prop} {E : Failure → σ → Prop} {s : σ}

theorem of_eq {x : Stateful σ α} {o : Outcome α} {t : σ} (h : x.run s = (o, t)) (hok : ∀ a, o = .ok a → Q a t)
    (herror : ∀ f, o = .error f → E f t) : Ends Q E x s := by
  refine ⟨fun {a t'} ha => ?_, fun {f t'} hf => ?_⟩
  · obtain ⟨ho, rfl⟩ := Prod.mk.inj (h.symm.trans ha)
    exact hok a ho
  · obtain ⟨ho, rfl⟩ := Prod.mk.inj (h.symm.trans hf)
    exact herror f ho

theorem of_run_eq {x y : Stateful σ α} {t : σ} (h : x.run s = y.run t) (hy : Ends Q E y t) : Ends Q E x s :=
  ⟨fun ha => hy.ok (h.symm.trans ha), fun hf => hy.error (h.symm.trans hf)⟩

theorem pure {a : α} (h : Q a s) : Ends Q E (pure a) s :=
  of_eq (run_pure a s) (fun _ e => Except.ok.inj e ▸ h) fun _ e => by cases e

theorem lift {o : Outcome α} (hok : ∀ a, o = .ok a → Q a s) (herror : ∀ f, o = .error f → E f s) :
    Ends Q E (Stateful.lift o) s := of_eq (run_lift o s) hok herror

theorem liftM {o : Outcome α} (hok : ∀ a, o = .ok a → Q a s) (herror : ∀ f, o = .error f → E f s) :
    Ends Q E (liftM o : Stateful σ α) s := of_eq (run_liftM o s) hok herror

theorem fail {e : Error} (h : E (.error e) s) : Ends Q E (Stateful.fail e) s :=
  of_eq (run_fail e s) (fun _ he => by cases he) fun _ he => Except.error.inj he ▸ h

theorem modify {Q : PUnit → σ → Prop} {f : σ → σ} (h : Q ⟨⟩ (f s)) : Ends Q E (modify f) s :=
  of_eq (run_modify f s) (fun _ _ => h) fun _ e => by cases e

theorem change {f : σ → Outcome (α × σ)} (hok : ∀ a t, f s = .ok (a, t) → Q a t) (herror : ∀ e, f s = .error e → E e s) :
    Ends Q E (Stateful.change f) s := by
  refine ⟨fun h => hok _ _ (run_change_ok.1 h), fun h => ?_⟩
  obtain ⟨hf, rfl⟩ := run_change_error.1 h
  exact herror _ hf

theorem bind {x : Stateful σ β} {f : β → Stateful σ α} (hx : Ends R E x s)
    (hf : ∀ b t, R b t → Ends Q E (f b) t) : Ends Q E (x >>= f) s := by
  rcases h : x.run s with ⟨e | b, t⟩
  · exact of_eq (run_bind_error h) (fun _ he => by cases he) fun _ he => Except.error.inj he ▸ hx.error h
  · have hrun : (x >>= f).run s = (f b).run t := by rw [run_bind, h]
    have hend := hf b t (hx.ok h)
    exact ⟨fun ha => hend.ok (hrun.symm.trans ha), fun he => hend.error (hrun.symm.trans he)⟩

theorem get_bind {f : σ → Stateful σ α} (h : Ends Q E (f s) s) : Ends Q E (get >>= f) s :=
  ⟨fun ha => h.ok ha, fun hf => h.error hf⟩

theorem focus {get : τ → σ} {set : σ → τ → τ} {x : Stateful σ α} {t : τ} {Q : α → τ → Prop} {E : Failure → τ → Prop}
    (h : Ends (fun a s => Q a (set s t)) (fun f s => E f (set s t)) x (get t)) : Ends Q E (x.focus get set) t :=
  of_eq (run_focus get set x t) (fun _ ha => h.ok (Prod.ext ha rfl)) fun _ hf => h.error (Prod.ext hf rfl)

/-- What a call keeps holds at both its ends. -/
theorem of_keeps {P : σ → Prop} {x : Stateful σ α} (h : Keeps P x) (hs : P s) : Ends (fun _ => P) (fun _ => P) x s :=
  of_eq rfl (fun _ _ => h s hs) fun _ _ => h s hs

theorem mono {Q' : α → σ → Prop} {E' : Failure → σ → Prop} {x : Stateful σ α} (h : Ends Q E x s)
    (hQ : ∀ a t, Q a t → Q' a t) (hE : ∀ f t, E f t → E' f t) : Ends Q' E' x s :=
  ⟨fun ha => hQ _ _ (h.ok ha), fun hf => hE _ _ (h.error hf)⟩

/-- What every call of a loop keeps, the whole loop keeps. -/
theorem forM {P : σ → Prop} {f : β → Stateful σ PUnit} : ∀ {l : List β} {s : σ},
    (∀ b ∈ l, ∀ s, P s → Ends (fun _ => P) E (f b) s) → P s → Ends (fun _ => P) E (l.forM f) s
  | [], _, _, hs => pure hs
  | b :: l, s, hf, hs =>
    bind (hf b (by simp) s hs) fun _ t ht => forM (fun b' hb' => hf b' (List.mem_cons_of_mem _ hb')) ht

end Ends

/-! ## Failures that do not come -/

/-- A call that ends with a certain failure from no state. -/
def Never (f : Failure) (x : Stateful σ α) : Prop := ∀ s, (x.run s).1 ≠ .error f

namespace Never

variable {f : Failure}

theorem pure (a : α) : Never f (pure a : Stateful σ α) := fun _ h => by cases h

theorem modify (k : σ → σ) : Never f (modify k : Stateful σ PUnit) := fun _ h => by cases h

theorem lift {o : Outcome α} (ho : o.Never f) : Never f (Stateful.lift o : Stateful σ α) := fun _ => ho

theorem liftM {o : Outcome α} (ho : o.Never f) : Never f (liftM o : Stateful σ α) := fun _ => ho

theorem change {k : σ → Outcome (α × σ)} (hk : ∀ s, (k s).Never f) : Never f (Stateful.change k) := by
  intro s h
  exact hk s (run_change_error.1 (Prod.ext h rfl)).1

theorem bind {x : Stateful σ β} {k : β → Stateful σ α} (hx : Never f x) (hk : ∀ b, Never f (k b)) : Never f (x >>= k) := by
  intro s h
  rcases hrun : x.run s with ⟨e | b, t⟩
  · rw [run_bind_error hrun] at h
    exact hx s ((congrArg Prod.fst hrun).trans (congrArg Except.error (Except.error.inj h)))
  · rw [run_bind, hrun] at h
    exact hk b t h

/-- What follows may rely on the value. -/
theorem liftM_bind {o : Outcome β} {k : β → Stateful σ α} (ho : o.Never f) (hk : ∀ b, o = .ok b → Never f (k b)) :
    Never f ((MonadLiftT.monadLift o : Stateful σ β) >>= k) := by
  cases o with
  | error e =>
    intro s h
    exact ho (congrArg Except.error (Except.error.inj h))
  | ok b => exact fun s => hk b rfl s

theorem get_bind {k : σ → Stateful σ α} (hk : ∀ s, Never f (k s)) : Never f (get >>= k) := fun s => hk s s

theorem focus {get : τ → σ} {set : σ → τ → τ} {x : Stateful σ α} (hx : Never f x) : Never f (x.focus get set) :=
  fun t => hx (get t)

theorem forM {k : β → Stateful σ PUnit} : ∀ {l : List β}, (∀ b, Never f (k b)) → Never f (l.forM k)
  | [], _ => pure _
  | b :: l, hk => bind (hk b) fun _ => forM (l := l) hk

theorem mapM {k : β → Stateful σ α} : ∀ {l : List β}, (∀ b, Never f (k b)) → Never f (l.mapM k)
  | [], _ => pure []
  | b :: l, hk => by
    rw [List.mapM_cons]
    exact bind (hk b) fun _ => bind (mapM (l := l) hk) fun _ => pure _

/-- A failure that does not come is not at either end of a run. -/
theorem ends {x : Stateful σ α} (h : Never f x) (s : σ) : Ends (fun a t => x.run s = (.ok a, t)) (fun e _ => e ≠ f) x s := by
  refine ⟨id, fun {e t} he heq => h s ?_⟩
  rw [he, heq]

end Never

end Stateful

end TensorGraph
