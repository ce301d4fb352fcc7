import EtcFS.Core.Revisioned

/-!
# Submitting a transaction until it is answered

A client repeats a transaction until a reply arrives or its attempts are spent.
-/

namespace EtcFS.Core

inductive Reply where
  /-- The request does not reach the store. -/
  | unsent
  /-- The store evaluates the transaction and the reply is lost. -/
  | lost
  /-- The store evaluates the transaction and the reply arrives. -/
  | answered
  deriving DecidableEq, Repr

inductive Outcome where
  | committed
  | rejected
  | failed
  deriving DecidableEq, Repr

def Reply.deliver {σ : Type*} (reply : Reply) (change : Option σ) (s : σ) : Outcome × σ :=
  match reply, change with
  | .unsent, _ => (.failed, s)
  | .lost, none => (.failed, s)
  | .lost, some t => (.failed, t)
  | .answered, none => (.rejected, s)
  | .answered, some t => (.committed, t)

theorem Reply.deliver_eq {σ : Type*} (reply : Reply) (change : Option σ) (s : σ) :
    reply.deliver change s = (.rejected, s) ∨ reply.deliver change s = (.failed, s) ∨
      ∃ t, change = some t ∧ (reply = .answered ∧ reply.deliver change s = (.committed, t) ∨
        reply = .lost ∧ reply.deliver change s = (.failed, t)) := by
  cases reply <;> cases change <;> simp [Reply.deliver]

theorem Reply.deliver_cases {σ : Type*} (reply : Reply) (change : Option σ) (s : σ) :
    ((reply.deliver change s).2 = s ∧ (reply.deliver change s).1 ≠ .committed) ∨
      ∃ t, change = some t ∧ (reply.deliver change s).2 = t ∧
        (reply = .answered ∧ (reply.deliver change s).1 = .committed ∨
          reply = .lost ∧ (reply.deliver change s).1 = .failed) := by
  cases reply <;> cases change <;> simp [Reply.deliver]

namespace Store

variable {κ : Type*} {β : κ → Type*} [DecidableEq κ] [∀ k, DecidableEq (β k)]

def submit (cmps : List (Cmp β)) (ops : List (Op β)) : List Reply → Store β → Outcome × Store β
  | [], s => (.failed, s)
  | .unsent :: replies, s => submit cmps ops replies s
  | .lost :: replies, s => submit cmps ops replies ((s.txn cmps ops).getD s)
  | .answered :: _, s =>
    match s.txn cmps ops with
    | some t => (.committed, t)
    | none => (.rejected, s)

variable {cmps : List (Cmp β)} {ops : List (Op β)} {s : Store β}

theorem submit_of_refused (h : s.txn cmps ops = none) (replies : List Reply) :
    submit cmps ops replies s = (if Reply.answered ∈ replies then .rejected else .failed, s) := by
  induction replies with
  | nil => rfl
  | cons reply replies ih =>
    cases reply with
    | unsent => simpa [submit] using ih
    | lost => simpa [submit, h] using ih
    | answered => simp [submit, h]

end Store

end EtcFS.Core
