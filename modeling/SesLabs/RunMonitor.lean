import SesLabs.EventRun
import Mathlib.Data.List.Basic

/-! Runs under watch. A watch follows the log of a run with a state of its own and
allows or refuses each event; the weakest precondition of a run asks that all its
events are allowed, also when it never returns, and that the state it returns in
is one with the property asked for. A run can be relabelled, and a run with extra
events can be erased to the run without them. -/
namespace SesLabs.RunMonitor
open EventRun EventRun.Run
variable {ε δ σ τ α β : Type}

instance : LawfulMonad (Run ε) := LawfulMonad.mk' _
  (by
    intro α x
    obtain ⟨log,result⟩ := x
    cases result <;> simp [Functor.map])
  (fun _ _ => rfl)
  (by
    intro α β γ x f g
    obtain ⟨log,result⟩ := x
    cases result with
    | none => rfl
    | some a =>
      simp only [bind]
      cases (f a).result <;> simp)

structure Watch (ε σ : Type) where
  Allows : σ → ε → Prop
  next : σ → ε → σ

namespace Watch
variable (w : Watch ε σ)

def after (s : σ) (log : List ε) : σ := log.foldl w.next s

def Accepts : σ → List ε → Prop
  | _, [] => True
  | s, e::log => w.Allows s e ∧ Accepts (w.next s e) log

theorem acceptsAppend (s : σ) (first second : List ε) :
    w.Accepts s (first ++ second) ↔ w.Accepts s first ∧ w.Accepts (w.after s first) second := by
  induction first generalizing s with
  | nil => simp [Accepts,after]
  | cons e first ih =>
    rw [List.cons_append,Accepts,Accepts,ih,and_assoc]
    rfl

theorem afterAppend (s : σ) (first second : List ε) :
    w.after s (first ++ second) = w.after (w.after s first) second := List.foldl_append

def wp (x : Run ε α) (Q : α → σ → Prop) (s : σ) : Prop :=
  w.Accepts s x.log ∧ ∀ a, x.result = some a → Q a (w.after s x.log)

variable {w} {s : σ}

theorem wpMono {x : Run ε α} {P Q : α → σ → Prop} (weaker : ∀ a t, P a t → Q a t) (holds : w.wp x P s) :
    w.wp x Q s :=
  ⟨holds.1,fun a returned => weaker _ _ (holds.2 a returned)⟩

theorem wpAccepts {x : Run ε α} {Q : α → σ → Prop} (holds : w.wp x Q s) : w.Accepts s x.log := holds.1

theorem wpReturns {x : Run ε α} {Q : α → σ → Prop} (holds : w.wp x Q s) {a : α} (returned : x.result = some a) :
    Q a (w.after s x.log) := holds.2 a returned

@[simp] theorem wpPure (a : α) (Q : α → σ → Prop) : w.wp (pure a) Q s ↔ Q a s := by
  simp [wp,Accepts,after]

@[simp] theorem wpEmit (e : ε) (Q : Unit → σ → Prop) :
    w.wp (emit e) Q s ↔ w.Allows s e ∧ Q () (w.next s e) := by
  refine ⟨?_,?_⟩
  · intro holds
    exact ⟨holds.1.1,holds.2 () rfl⟩
  · intro holds
    exact ⟨⟨holds.1,trivial⟩,fun _ _ => holds.2⟩

@[simp] theorem wpBind (x : Run ε α) (f : α → Run ε β) (Q : β → σ → Prop) :
    w.wp (x >>= f) Q s ↔ w.wp x (fun a => w.wp (f a) Q) s := by
  unfold wp
  cases returned : x.result with
  | none => simp [bind,returned]
  | some a =>
    rw [bindLog returned,acceptsAppend,afterAppend,bindResult,returned]
    simp [and_assoc]

theorem wpStuck {e : ε} {result : Option α} {Q : α → σ → Prop} (allowed : w.Allows s e)
    (returns : ∀ a, result = some a → Q a (w.next s e)) : w.wp ⟨[e],result⟩ Q s :=
  ⟨⟨allowed,trivial⟩,returns⟩

section Loops

/- The invariant of a counted loop speaks about the rounds that are left. -/
theorem wpCountdown {body : Nat → τ → Run ε τ} (I : Nat → τ → σ → Prop) {n : Nat}
    (step : ∀ i < n, ∀ st s, I (i+1) st s → w.wp (body (i+1) st) (I i) s) {st : τ} (start : I n st s) :
    w.wp (countdown body n st) (I 0) s := by
  induction n generalizing st s with
  | zero => simpa [countdown] using start
  | succ n ih =>
    rw [countdown,wpBind]
    refine wpMono (fun st' s' kept => ?_) (step n (Nat.lt_succ_self n) st s start)
    exact ih (fun i inside => step i (Nat.lt_succ_of_lt inside)) kept

/- The fuel only cuts the log short. -/
theorem wpLoop {guard : τ → Bool} {body : τ → Run ε τ} (I : τ → σ → Prop)
    (step : ∀ st s, I st s → guard st = true → w.wp (body st) I s) (fuel : Nat) {st : τ} (start : I st s) :
    w.wp (loop guard body fuel st) I s := by
  induction fuel generalizing st s with
  | zero => exact ⟨trivial,fun _ returned => by cases returned⟩
  | succ fuel ih =>
    rw [loop]
    split
    · rename_i running
      rw [wpBind]
      exact wpMono (fun st' s' kept => ih kept) (step st s start running)
    · rw [wpPure]
      exact start

end Loops
end Watch

section Relabel

def relabel (f : ε → δ) (x : Run ε α) : Run δ α := ⟨x.log.map f,x.result⟩

@[simp] theorem relabelPure (f : ε → δ) (a : α) : relabel f (pure a : Run ε α) = pure a := rfl
@[simp] theorem relabelEmit (f : ε → δ) (e : ε) : relabel f (emit e) = emit (f e) := rfl

@[simp] theorem relabelBind (f : ε → δ) (x : Run ε α) (g : α → Run ε β) :
    relabel f (x >>= g) = relabel f x >>= fun a => relabel f (g a) := by
  obtain ⟨log,result⟩ := x
  cases result with
  | none => rfl
  | some a => simp [relabel,bind]

@[simp] theorem relabelLoop (f : ε → δ) (guard : τ → Bool) (body : τ → Run ε τ) (fuel : Nat) (st : τ) :
    relabel f (loop guard body fuel st) = loop guard (fun st => relabel f (body st)) fuel st := by
  induction fuel generalizing st with
  | zero => rfl
  | succ fuel ih =>
    rw [loop,loop]
    split
    · rw [relabelBind]
      exact congrArg _ (funext ih)
    · rfl

@[simp] theorem relabelCountdown (f : ε → δ) (body : Nat → τ → Run ε τ) (n : Nat) (st : τ) :
    relabel f (countdown body n st) = countdown (fun i st => relabel f (body i st)) n st := by
  induction n generalizing st with
  | zero => rfl
  | succ n ih =>
    rw [countdown,countdown,relabelBind]
    exact congrArg _ (funext ih)

end Relabel

section Erase
variable (g : δ → Option ε)

def erase (x : Run δ α) : Run ε α := ⟨x.log.filterMap g,x.result⟩

@[simp] theorem erasePure (a : α) : erase g (pure a : Run δ α) = pure a := rfl

@[simp] theorem eraseBind (x : Run δ α) (f : α → Run δ β) :
    erase g (x >>= f) = erase g x >>= fun a => erase g (f a) := by
  obtain ⟨log,result⟩ := x
  cases result with
  | none => rfl
  | some a => simp [erase,bind]

theorem eraseEmit {e : δ} (extra : g e = none) : erase g (emit e) = pure () := by
  simp [erase,emit,extra]
  rfl

theorem eraseRelabel {f : ε → δ} (back : ∀ e, g (f e) = some e) (x : Run ε α) : erase g (relabel f x) = x := by
  obtain ⟨log,result⟩ := x
  simp [erase,relabel,List.filterMap_map,back]

@[simp] theorem eraseCountdown (body : Nat → τ → Run δ τ) (n : Nat) (st : τ) :
    erase g (countdown body n st) = countdown (fun i st => erase g (body i st)) n st := by
  induction n generalizing st with
  | zero => rfl
  | succ n ih =>
    rw [countdown,countdown,eraseBind]
    exact congrArg _ (funext ih)

end Erase
end SesLabs.RunMonitor
