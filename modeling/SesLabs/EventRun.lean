import Mathlib.Data.List.Basic

/-! Partial computations that log the events they cause. A run without a result
is stuck or has used up its fuel; the events logged up to there are kept, so a
safety statement also covers the prefixes of a run that never returns. -/
namespace SesLabs.EventRun

structure Run (ε α : Type) where
  log : List ε
  result : Option α
  deriving Repr

namespace Run
variable {ε α β σ : Type}

instance : Monad (Run ε) where
  pure a := ⟨[],some a⟩
  bind x f := match x.result with
    | none => ⟨x.log,none⟩
    | some a => ⟨x.log ++ (f a).log,(f a).result⟩

def emit (e : ε) : Run ε Unit := ⟨[e],some ()⟩

@[simp] theorem pureResult (a : α) : (pure a : Run ε α).result = some a := rfl
@[simp] theorem pureLog (a : α) : (pure a : Run ε α).log = [] := rfl
@[simp] theorem emitResult (e : ε) : (emit e).result = some () := rfl
@[simp] theorem emitLog (e : ε) : (emit e).log = [e] := rfl

@[simp] theorem bindResult (x : Run ε α) (f : α → Run ε β) :
    (x >>= f).result = x.result.bind (fun a => (f a).result) := by
  cases h : x.result <;> simp [bind,h]

theorem bindLog {x : Run ε α} {a : α} (returned : x.result = some a) (f : α → Run ε β) :
    (x >>= f).log = x.log ++ (f a).log := by
  simp [bind,returned]

theorem memBind {x : Run ε α} {f : α → Run ε β} {e : ε} :
    e ∈ (x >>= f).log ↔ e ∈ x.log ∨ ∃ a, x.result = some a ∧ e ∈ (f a).log := by
  cases h : x.result <;> simp [bind,h]

def Always (P : ε → Prop) (x : Run ε α) : Prop := ∀ e ∈ x.log, P e
instance (P : ε → Prop) [DecidablePred P] (x : Run ε α) : Decidable (x.Always P) :=
  inferInstanceAs (Decidable (∀ e ∈ x.log, P e))

@[simp] theorem alwaysPure (P : ε → Prop) (a : α) : (pure a : Run ε α).Always P := by
  simp [Always]

@[simp] theorem alwaysEmit (P : ε → Prop) (e : ε) : (emit e).Always P ↔ P e := by
  simp [Always]

theorem alwaysBind {P : ε → Prop} {x : Run ε α} {f : α → Run ε β} :
    (x >>= f).Always P ↔ x.Always P ∧ ∀ a, x.result = some a → (f a).Always P := by
  refine ⟨?_,?_⟩
  · intro all
    exact ⟨fun e mem => all e (memBind.mpr (.inl mem)),
      fun a returned e mem => all e (memBind.mpr (.inr ⟨a,returned,mem⟩))⟩
  · intro both e mem
    rcases memBind.mp mem with mem | ⟨a,returned,mem⟩
    · exact both.1 e mem
    · exact both.2 a returned e mem

theorem memReturned {x : Run ε α} {a : α} (returned : x.result = some a) (f : α → Run ε β) {e : ε} :
    e ∈ (x >>= f).log ↔ e ∈ x.log ∨ e ∈ (f a).log := by
  simp [memBind,returned]

-- `for (i = n; i; i--) body`, where the body sees the counter.
def countdown (body : Nat → σ → Run ε σ) : Nat → σ → Run ε σ
  | 0, s => pure s
  | i+1, s => body (i+1) s >>= countdown body i

-- `for (; guard; ) body`, cut off when the fuel is used up.
def loop (guard : σ → Bool) (body : σ → Run ε σ) : Nat → σ → Run ε σ
  | 0, _ => ⟨[],none⟩
  | fuel+1, s => if guard s then body s >>= loop guard body fuel else pure s

/- Both loops are followed along a sequence of states that the caller names in
closed form; the body has to step along that sequence. -/
section Counted
variable {body : Nat → σ → Run ε σ} {n : Nat} (state : Nat → σ)

theorem shiftSteps (steps : ∀ t < n+1, (body (n+1-t) (state t)).result = some (state (t+1))) :
    ∀ t < n, (body (n-t) (state (t+1))).result = some (state (t+1+1)) := by
  intro t ht
  have next := steps (t+1) (by omega)
  rwa [Nat.add_sub_add_right] at next

theorem countdownResult (steps : ∀ t < n, (body (n-t) (state t)).result = some (state (t+1))) :
    (countdown body n (state 0)).result = some (state n) := by
  induction n generalizing state with
  | zero => rfl
  | succ n ih =>
    have first := steps 0 (Nat.succ_pos n)
    have rest := ih (fun t => state (t+1)) (shiftSteps state steps)
    rw [Nat.sub_zero] at first
    simpa [countdown,first] using rest

theorem memCountdown (steps : ∀ t < n, (body (n-t) (state t)).result = some (state (t+1))) {e : ε} :
    e ∈ (countdown body n (state 0)).log ↔ ∃ t < n, e ∈ (body (n-t) (state t)).log := by
  induction n generalizing state with
  | zero => simp [countdown]
  | succ n ih =>
    have first := steps 0 (Nat.succ_pos n)
    have rest := ih (fun t => state (t+1)) (shiftSteps state steps)
    rw [Nat.sub_zero] at first
    rw [countdown,memReturned first]
    refine ⟨?_,?_⟩
    · intro mem
      rcases mem with mem | mem
      · exact ⟨0,Nat.succ_pos n,mem⟩
      · obtain ⟨t,ht,mem⟩ := rest.mp mem
        exact ⟨t+1,Nat.succ_lt_succ ht,by rwa [Nat.add_sub_add_right]⟩
    · intro found
      obtain ⟨t,ht,mem⟩ := found
      cases t with
      | zero => exact .inl mem
      | succ t =>
        rw [Nat.add_sub_add_right] at mem
        exact .inr (rest.mpr ⟨t,Nat.lt_of_succ_lt_succ ht,mem⟩)

theorem alwaysCountdown {P : ε → Prop}
    (steps : ∀ t < n, (body (n-t) (state t)).result = some (state (t+1))) :
    (countdown body n (state 0)).Always P ↔ ∀ t < n, (body (n-t) (state t)).Always P := by
  unfold Always
  refine ⟨?_,?_⟩
  · intro all t ht e mem
    exact all e ((memCountdown state steps).mpr ⟨t,ht,mem⟩)
  · intro all e mem
    obtain ⟨t,ht,mem⟩ := (memCountdown state steps).mp mem
    exact all t ht e mem

theorem countdownBlocked {s : σ} (blocked : (body (n+1) s).result = none) :
    (countdown body (n+1) s).result = none ∧ (countdown body (n+1) s).log = (body (n+1) s).log := by
  simp [countdown,bind,blocked]

end Counted

section Fuel
variable {guard : σ → Bool} {body : σ → Run ε σ} {n : Nat} (state : Nat → σ)

theorem loopResultAfter (running : ∀ t < n, guard (state t) = true)
    (steps : ∀ t < n, (body (state t)).result = some (state (t+1))) (fuel : Nat) :
    (loop guard body (n+fuel) (state 0)).result = (loop guard body fuel (state n)).result := by
  induction n generalizing state with
  | zero => simp
  | succ n ih =>
    have rest := ih (fun t => state (t+1)) (fun t ht => running (t+1) (Nat.succ_lt_succ ht))
      (fun t ht => steps (t+1) (Nat.succ_lt_succ ht))
    rw [Nat.succ_add]
    simpa [loop,running 0 (Nat.succ_pos n),steps 0 (Nat.succ_pos n)] using rest

theorem memLoopAfter (running : ∀ t < n, guard (state t) = true)
    (steps : ∀ t < n, (body (state t)).result = some (state (t+1))) (fuel : Nat) {e : ε} :
    e ∈ (loop guard body (n+fuel) (state 0)).log ↔
      (∃ t < n, e ∈ (body (state t)).log) ∨ e ∈ (loop guard body fuel (state n)).log := by
  induction n generalizing state with
  | zero => simp
  | succ n ih =>
    have rest := ih (fun t => state (t+1)) (fun t ht => running (t+1) (Nat.succ_lt_succ ht))
      (fun t ht => steps (t+1) (Nat.succ_lt_succ ht))
    rw [Nat.succ_add,loop,if_pos (running 0 (Nat.succ_pos n)),memReturned (steps 0 (Nat.succ_pos n))]
    refine ⟨?_,?_⟩
    · intro mem
      rcases mem with mem | mem
      · exact .inl ⟨0,Nat.succ_pos n,mem⟩
      · rcases rest.mp mem with ⟨t,ht,mem⟩ | mem
        · exact .inl ⟨t+1,Nat.succ_lt_succ ht,mem⟩
        · exact .inr mem
    · intro mem
      rcases mem with ⟨t,ht,mem⟩ | mem
      · cases t with
        | zero => exact .inl mem
        | succ t => exact .inr (rest.mpr (.inl ⟨t,Nat.lt_of_succ_lt_succ ht,mem⟩))
      · exact .inr (rest.mpr (.inr mem))

theorem loopExit (running : ∀ t < n, guard (state t) = true) (stop : guard (state n) = false)
    (steps : ∀ t < n, (body (state t)).result = some (state (t+1))) (fuel : Nat) :
    (loop guard body fuel (state 0)).result = if n < fuel then some (state n) else none := by
  split
  · rename_i enough
    obtain ⟨more,rfl⟩ : ∃ more, fuel = n+(more+1) := ⟨fuel-n-1,by omega⟩
    rw [loopResultAfter state running steps]
    simp [loop,stop]
  · rename_i short
    have cut := loopResultAfter (n := fuel) state (fun t ht => running t (by omega))
      (fun t ht => steps t (by omega)) 0
    simpa [loop] using cut

theorem memLoopExit (running : ∀ t < n, guard (state t) = true) (stop : guard (state n) = false)
    (steps : ∀ t < n, (body (state t)).result = some (state (t+1))) (fuel : Nat) {e : ε} :
    e ∈ (loop guard body fuel (state 0)).log ↔ ∃ t < min n fuel, e ∈ (body (state t)).log := by
  rcases Nat.lt_or_ge n fuel with enough | short
  · obtain ⟨more,rfl⟩ : ∃ more, fuel = n+(more+1) := ⟨fuel-n-1,by omega⟩
    rw [memLoopAfter state running steps,Nat.min_eq_left (by omega)]
    simp [loop,stop]
  · have cut := memLoopAfter (n := fuel) (e := e) state (fun t ht => running t (by omega))
      (fun t ht => steps t (by omega)) 0
    rw [Nat.min_eq_right short]
    simpa [loop] using cut

theorem loopForever (running : ∀ t, guard (state t) = true)
    (steps : ∀ t, (body (state t)).result = some (state (t+1))) (fuel : Nat) :
    (loop guard body fuel (state 0)).result = none := by
  have cut := loopResultAfter (n := fuel) state (fun t _ => running t) (fun t _ => steps t) 0
  simpa [loop] using cut

theorem memLoopForever (running : ∀ t, guard (state t) = true)
    (steps : ∀ t, (body (state t)).result = some (state (t+1))) (fuel : Nat) {e : ε} :
    e ∈ (loop guard body fuel (state 0)).log ↔ ∃ t < fuel, e ∈ (body (state t)).log := by
  have cut := memLoopAfter (n := fuel) (e := e) state (fun t _ => running t)
    (fun t _ => steps t) 0
  simpa [loop] using cut

end Fuel
end Run
end SesLabs.EventRun
