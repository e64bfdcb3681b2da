import Mathlib.Data.Nat.Notation

/-! Programs of one thread. A program is a tree of calls: every call is one atomic
operation on a state the thread shares with others, and its continuation receives
the value the operation returned or the exception it raised. Sequencing, raising
and catching are the only control structure; loops are recursions over lists. -/

namespace YtScheduler.Threads

/-- A program over the operations `Op`, with results `Ret` and exceptions `ε`. -/
inductive Prog (Op : Type) (Ret : Op → Type) (ε α : Type) : Type
  | ret (a : α)
  | raise (e : ε)
  | call (o : Op) (k : Except ε (Ret o) → Prog Op Ret ε α)

namespace Prog

variable {Op : Type} {Ret : Op → Type} {ε α β : Type}

def bind (p : Prog Op Ret ε α) (f : α → Prog Op Ret ε β) : Prog Op Ret ε β :=
  match p with
  | .ret a => f a
  | .raise e => .raise e
  | .call o k => .call o fun r => (k r).bind f

/-- Run `p` and return its outcome, exceptions included. -/
def attempt (p : Prog Op Ret ε α) : Prog Op Ret ε (Except ε α) :=
  match p with
  | .ret a => .ret (.ok a)
  | .raise e => .ret (.error e)
  | .call o k => .call o fun r => (k r).attempt

instance : Monad (Prog Op Ret ε) where
  pure := .ret
  bind := bind

/-- `try p except e: h e`. -/
def catching (p : Prog Op Ret ε α) (h : ε → Prog Op Ret ε α) : Prog Op Ret ε α :=
  p.attempt.bind fun
    | .ok a => .ret a
    | .error e => h e

/-- One operation. -/
def op (o : Op) : Prog Op Ret ε (Ret o) :=
  .call o fun
    | .ok r => .ret r
    | .error e => .raise e

/-- `for x in xs: body x`. -/
def forEach (xs : List β) (body : β → Prog Op Ret ε Unit) : Prog Op Ret ε Unit :=
  match xs with
  | [] => .ret ()
  | x :: xs => (body x).bind fun _ => forEach xs body

@[simp] theorem pure_eq (a : α) : (pure a : Prog Op Ret ε α) = .ret a := rfl

@[simp] theorem bind_eq (p : Prog Op Ret ε α) (f : α → Prog Op Ret ε β) : p >>= f = p.bind f := rfl

@[simp] theorem ret_bind (a : α) (f : α → Prog Op Ret ε β) :
    (Prog.ret a : Prog Op Ret ε α).bind f = f a := rfl

@[simp] theorem raise_bind (e : ε) (f : α → Prog Op Ret ε β) :
    (Prog.raise e : Prog Op Ret ε α).bind f = .raise e := rfl

@[simp] theorem ret_attempt (a : α) : (Prog.ret a : Prog Op Ret ε α).attempt = .ret (.ok a) := rfl

@[simp] theorem raise_attempt (e : ε) :
    (Prog.raise e : Prog Op Ret ε α).attempt = .ret (.error e) := rfl

theorem bind_assoc {γ : Type} (p : Prog Op Ret ε α) (f : α → Prog Op Ret ε β)
    (g : β → Prog Op Ret ε γ) : (p.bind f).bind g = p.bind fun a => (f a).bind g := by
  induction p with
  | ret a => rfl
  | raise e => rfl
  | call o k ih => exact congrArg (call o) (funext ih)

/-- No call is left. -/
def isEnded : Prog Op Ret ε α → Bool
  | .ret _ => true
  | .raise _ => true
  | .call _ _ => false

/-- Every operation of the program satisfies `P`, whatever the calls return. -/
def Uses (P : Op → Prop) : Prog Op Ret ε α → Prop
  | .ret _ => True
  | .raise _ => True
  | .call o k => P o ∧ ∀ r, (k r).Uses P

variable {P : Op → Prop}

theorem Uses.bind {p : Prog Op Ret ε α} {f : α → Prog Op Ret ε β} (hp : p.Uses P)
    (hf : ∀ a, (f a).Uses P) : (p.bind f).Uses P := by
  induction p with
  | ret a => exact hf a
  | raise e => trivial
  | call o k ih => exact ⟨hp.1, fun r => ih r (hp.2 r)⟩

theorem Uses.attempt {p : Prog Op Ret ε α} (hp : p.Uses P) : p.attempt.Uses P := by
  induction p with
  | ret a => trivial
  | raise e => trivial
  | call o k ih => exact ⟨hp.1, fun r => ih r (hp.2 r)⟩

theorem Uses.catching {p : Prog Op Ret ε α} {h : ε → Prog Op Ret ε α} (hp : p.Uses P)
    (hh : ∀ e, (h e).Uses P) : (p.catching h).Uses P := by
  refine hp.attempt.bind fun r => ?_
  cases r with
  | ok a => trivial
  | error e => exact hh e

theorem Uses.op {o : Op} (ho : P o) : (op o : Prog Op Ret ε (Ret o)).Uses P := by
  refine ⟨ho, fun r => ?_⟩
  cases r <;> trivial

theorem Uses.forEach {xs : List β} {body : β → Prog Op Ret ε Unit}
    (hb : ∀ x ∈ xs, (body x).Uses P) : (Prog.forEach xs body).Uses P := by
  induction xs with
  | nil => trivial
  | cons x xs ih =>
    exact (hb x List.mem_cons_self).bind fun _ => ih fun y hy => hb y (List.mem_cons_of_mem _ hy)

theorem uses_true (p : Prog Op Ret ε α) : p.Uses fun _ => True := by
  induction p with
  | ret a => trivial
  | raise e => trivial
  | call o k ih => exact ⟨trivial, ih⟩

theorem Uses.mono {Q : Op → Prop} {p : Prog Op Ret ε α} (hp : p.Uses P) (h : ∀ o, P o → Q o) :
    p.Uses Q := by
  induction p with
  | ret a => trivial
  | raise e => trivial
  | call o k ih => exact ⟨h o hp.1, fun r => ih r (hp.2 r)⟩

/-- Every value the program may return satisfies `A`, whatever the calls return. -/
def Gives (A : α → Prop) : Prog Op Ret ε α → Prop
  | .ret a => A a
  | .raise _ => True
  | .call _ k => ∀ r, (k r).Gives A

theorem Gives.bind {A : α → Prop} {B : β → Prop} {p : Prog Op Ret ε α} {f : α → Prog Op Ret ε β}
    (hp : p.Gives A) (hf : ∀ a, A a → (f a).Gives B) : (p.bind f).Gives B := by
  induction p with
  | ret a => exact hf a hp
  | raise e => trivial
  | call o k ih => exact fun r => ih r (hp r)

theorem gives_true (p : Prog Op Ret ε α) : p.Gives fun _ => True := by
  induction p with
  | ret a => trivial
  | raise e => trivial
  | call o k ih => exact ih

/-- The rest of a program has only to do with the values the first part may return. -/
theorem Uses.bind_gives {A : α → Prop} {p : Prog Op Ret ε α} {f : α → Prog Op Ret ε β}
    (hp : p.Uses P) (hA : p.Gives A) (hf : ∀ a, A a → (f a).Uses P) : (p.bind f).Uses P := by
  induction p with
  | ret a => exact hf a hA
  | raise e => trivial
  | call o k ih => exact ⟨hp.1, fun r => ih r (hp.2 r) (hA r)⟩

end Prog

end YtScheduler.Threads
