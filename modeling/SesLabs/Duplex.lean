import Mathlib.Data.List.Infix
import Mathlib.Logic.Relation

/-! Two parties and a reliable stream in each direction: what was sent arrives once
and in order, at any time. A party acts on its own or on the next thing it receives;
whatever the order of their steps, what each party does depends on its own past only. -/
namespace SesLabs.Duplex

inductive Side where
  | client
  | server
  deriving DecidableEq, Repr

def Side.other : Side → Side
  | .client => .server
  | .server => .client

def isServer (side : Side) : Bool := side = .server

structure Net (σ μ : Type) where
  party : Side → σ
  sent : Side → List μ
  received : Side → List μ

variable {σ μ : Type}

/- What a party may do: the event is none when it acts on its own. -/
abbrev Behaviour (σ μ : Type) := Side → σ → Option μ → σ → List μ → Prop

def Net.acted (net : Net σ μ) (side : Side) (next : σ) (out heard : List μ) : Net σ μ where
  party := Function.update net.party side next
  sent := Function.update net.sent side (net.sent side ++ out)
  received := Function.update net.received side (net.received side ++ heard)

inductive Step (act : Behaviour σ μ) : Net σ μ → Net σ μ → Prop where
  | own {net : Net σ μ} {side : Side} {next : σ} {out : List μ} (acts : act side (net.party side) none next out) :
      Step act net (net.acted side next out [])
  | receive {net : Net σ μ} {side : Side} {m : μ} {next : σ} {out : List μ} (rest : List μ)
      (waiting : net.sent side.other = net.received side ++ m::rest)
      (acts : act side (net.party side) (some m) next out) : Step act net (net.acted side next out [m])

def Reaches (act : Behaviour σ μ) : Net σ μ → Net σ μ → Prop := Relation.ReflTransGen (Step act)

def opening (party : Side → σ) : Net σ μ := ⟨party,fun _ => [],fun _ => []⟩

section Runs
variable {act : Behaviour σ μ} {party : Side → σ} {net : Net σ μ}

theorem otherNe (side : Side) : side.other ≠ side := by
  cases side <;> decide

section Acted
variable (net : Net σ μ) (side : Side) (next : σ) (out heard : List μ)

@[simp]
theorem actedParty : (net.acted side next out heard).party side = next := Function.update_self ..

@[simp]
theorem actedPartyOther : (net.acted side next out heard).party side.other = net.party side.other :=
  Function.update_of_ne (otherNe side) ..

@[simp]
theorem actedReceived : (net.acted side next out heard).received side = net.received side ++ heard :=
  Function.update_self ..

@[simp]
theorem actedSentOther : (net.acted side next out heard).sent side.other = net.sent side.other :=
  Function.update_of_ne (otherNe side) ..

end Acted

theorem actedPrefix {actor : Side} {next : σ} {out heard : List μ}
    (waiting : net.received actor ++ heard <+: net.sent actor.other)
    (before : ∀ side, net.received side <+: net.sent side.other) (side : Side) :
    (net.acted actor next out heard).received side <+: (net.acted actor next out heard).sent side.other := by
  rw [Net.acted]
  simp only
  by_cases receiver : side = actor
  · subst actor
    rw [Function.update_self,Function.update_of_ne (otherNe side)]
    exact waiting
  · rw [Function.update_of_ne receiver]
    by_cases sender : side.other = actor
    · subst actor
      rw [Function.update_self]
      exact (before side).trans (List.prefix_append _ _)
    · rw [Function.update_of_ne sender]
      exact before side

theorem receivedFirst (reached : Reaches act (opening party) net) (side : Side) :
    net.received side <+: net.sent side.other := by
  induction reached generalizing side with
  | refl => exact List.nil_prefix
  | @tail before after run step ih =>
    cases step with
    | @own actor next out acts =>
      refine actedPrefix ?_ ih side
      rw [List.append_nil]
      exact ih actor
    | @receive actor m next out rest waiting acts =>
      refine actedPrefix ?_ ih side
      rw [waiting]
      exact ⟨rest,by simp⟩

/- A property of one party and its own past holds in every interleaving if each of
its own steps keeps it. -/
theorem localInvariant {holds : Side → σ → List μ → List μ → Prop}
    (start : ∀ side, holds side (party side) [] [])
    (alone : ∀ side s received sent next out, holds side s received sent → act side s none next out →
      holds side next received (sent ++ out))
    (answers : ∀ side s received sent m next out, holds side s received sent → act side s (some m) next out →
      holds side next (received ++ [m]) (sent ++ out))
    (reached : Reaches act (opening party) net) (side : Side) :
    holds side (net.party side) (net.received side) (net.sent side) := by
  induction reached generalizing side with
  | refl => exact start side
  | @tail before after run step ih =>
    cases step with
    | @own actor next out acts =>
      rw [Net.acted]
      simp only
      by_cases mine : side = actor
      · subst actor
        rw [Function.update_self,Function.update_self,Function.update_self,List.append_nil]
        exact alone side _ _ _ _ _ (ih side) acts
      · rw [Function.update_of_ne mine,Function.update_of_ne mine,Function.update_of_ne mine]
        exact ih side
    | @receive actor m next out rest waiting acts =>
      rw [Net.acted]
      simp only
      by_cases mine : side = actor
      · subst actor
        rw [Function.update_self,Function.update_self,Function.update_self]
        exact answers side _ _ _ _ _ _ (ih side) acts
      · rw [Function.update_of_ne mine,Function.update_of_ne mine,Function.update_of_ne mine]
        exact ih side

end Runs

end SesLabs.Duplex
