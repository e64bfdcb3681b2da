import YtScheduler.Services.Rules
import YtScheduler.Consistency.Commits

/-! The contract of the scheduling threads, and the rules of composition. A thread relies
on nobody else using its client and guarantees that the
state grows and that each of its commits is one of `Committed`. A specification says
besides whether a transaction is open on the thread's client, and its writes so far. -/

namespace YtScheduler

open Tablet Threads

/-- What thread `i` relies on between its calls. -/
structure Relies (i : ℕ) (s s' : Shared) : Prop where
  grows : Grows s s'
  leaves : Leaves i s.mem s'.mem
  opened : s'.opened (.thread i) = s.opened (.thread i)

namespace Relies

variable {i : ℕ} {s s' s'' : Shared}

theorem refl (i : ℕ) (s : Shared) : Relies i s s := ⟨.refl s, .refl i s.mem, rfl⟩

theorem trans (h : Relies i s s') (h' : Relies i s' s'') : Relies i s s'' :=
  ⟨h.grows.trans h'.grows, h.leaves.trans h'.leaves, h'.opened.trans h.opened⟩

end Relies

/-- A step changes the tables only by a commit that is accounted for, and the memory only by
an access that is. -/
structure Guarantees (i : ℕ) (o : Op) (s s' : Shared) : Prop where
  grows : Grows s s'
  access : ∀ a, o = .mem a → a.Ok i s
  committed : ∀ c, s'.store = s.store.append c → Committed i s o c ∧ c.start ≤ s.store.now

def contract : Contract Op Loc Shared where
  inv := Consistent
  grows := Grows
  rely := Relies
  guar o i _ s _ s' := Guarantees i o s s'
  fresh i s := s.opened (.thread i) = []
  refl := Relies.refl
  trans _ _ _ _ := Relies.trans
  fresh_rely _ _ _ h hf := h.opened.trans hf
  grows_refl := Grows.refl
  grows_trans _ _ _ := Grows.trans
  rely_grows _ _ _ h := h.grows
  guar_grows _ _ _ _ _ _ h := h.grows

/-- Thread `i` may be in a transaction on its client, begun at `ts` and with writes `w`; outside
of one, `w` has been committed. -/
structure Stmt (i : ℕ) (m : Option ℕ) (w : List Row) (s : Shared) : Prop where
  consistent : Consistent s
  opened : s.opened (.thread i) = m.elim [] fun ts => [(i, ⟨ts, w⟩)]
  le_now : ∀ ts, m = some ts → ts ≤ s.store.now
  written : m = none → ∀ row ∈ w, ∃ c ∈ s.store.log, row ∈ c.rows

theorem Stmt.of_relies {i : ℕ} {m : Option ℕ} {w : List Row} {s s' : Shared} (h : Stmt i m w s)
    (hr : Relies i s s') (hc : Consistent s') : Stmt i m w s' where
  consistent := hc
  opened := hr.opened.trans h.opened
  le_now ts hts := (h.le_now ts hts).trans hr.grows.store.now_le
  written hm row hrow := by
    obtain ⟨c, hc, hw⟩ := h.written hm row hrow
    exact ⟨c, hr.grows.store.mem_log hc, hw⟩

/-- A program ends in the transaction it started in; `Q` holds of a result. -/
abbrev Ends {α : Type} (i : ℕ) (m : Option ℕ) (Q : α → List Row → Shared → Prop) :
    Post Exn α Loc Shared :=
  Safe.Keeps (fun w _ s => Stmt i m w s) fun a w _ s => Q a w s

abbrev Spec {α : Type} (i : ℕ) (p : P α) (Q : Post Exn α Loc Shared) (l : Loc) (s : Shared) : Prop :=
  Safe system contract i p Q l s

/-! ### Composition -/

section Composition

variable {α β : Type} {i : ℕ} {m : Option ℕ} {w : List Row} {l : Loc} {s : Shared} {p : P α}
  {Q : α → List Row → Shared → Prop} {R : β → List Row → Shared → Prop}

namespace Spec

theorem ret {a : α} (hs : Stmt i m w s) (hQ : Q a w s) : Spec i (.ret a) (Ends i m Q) l s :=
  ⟨w, hs, hQ⟩

theorem raise {e : Exn} (hs : Stmt i m w s) : Spec i (.raise e : P α) (Ends i m Q) l s := ⟨w, hs⟩

theorem conseq {Q' : α → List Row → Shared → Prop} (h : Spec i p (Ends i m Q) l s)
    (hQ : ∀ a w s', Stmt i m w s' → Grows s s' → Q a w s' → Q' a w s') :
    Spec i p (Ends i m Q') l s := Safe.keeps_conseq h fun a w _ s' => hQ a w s'

theorem mono {Q' : α → List Row → Shared → Prop} (h : Spec i p (Ends i m Q) l s)
    (hQ : ∀ a w s', Grows s s' → Q a w s' → Q' a w s') : Spec i p (Ends i m Q') l s :=
  h.conseq fun a w s' _ => hQ a w s'

theorem bind {f : α → P β} (hp : Spec i p (Ends i m Q) l s)
    (hf : ∀ a w l' s', Stmt i m w s' → Q a w s' → Grows s s' → Spec i (f a) (Ends i m R) l' s') :
    Spec i (p.bind f) (Ends i m R) l s := Safe.keeps_bind hp hf

theorem attempt (hp : Spec i p (Ends i m Q) l s) :
    Spec i p.attempt (Ends i m fun r w s => ∀ a, r = .ok a → Q a w s) l s := Safe.keeps_attempt hp

theorem catching {h : Exn → P α} (hp : Spec i p (Ends i m Q) l s)
    (hh : ∀ e w l' s', Stmt i m w s' → Grows s s' → Spec i (h e) (Ends i m Q) l' s') :
    Spec i (p.catching h) (Ends i m Q) l s := Safe.keeps_catching hp hh

theorem forEach {xs : List β} {body : β → P Unit} (hs : Stmt i m w s)
    (hb : ∀ x ∈ xs, ∀ w l' s', Stmt i m w s' → Grows s s' →
      Spec i (body x) (Ends i m fun _ _ _ => True) l' s') :
    Spec i (Prog.forEach xs body) (Ends i m fun _ _ _ => True) l s := Safe.keeps_forEach hs hb

theorem loop {iter : P Unit} {n : ℕ} (hs : Stmt i m w s)
    (hb : ∀ w l' s', Stmt i m w s' → Grows s s' →
      Spec i iter (Ends i m fun _ _ _ => True) l' s') :
    Spec i (Pool.loop iter n) (Ends i m fun _ _ _ => True) l s := Pool.safe_loop hs hb

theorem retrier {exceptions : Exn → Bool} {onExhaust : Exn → P α} {n : ℕ} (hs : Stmt i m w s)
    (hp : ∀ w l' s', Stmt i m w s' → Grows s s' → Spec i p (Ends i m Q) l' s')
    (hx : ∀ e w l' s', Stmt i m w s' → Grows s s' → Spec i (onExhaust e) (Ends i m Q) l' s') :
    Spec i (P.retrier exceptions onExhaust p n) (Ends i m Q) l s := P.safe_retrier hs hp hx

theorem handleExceptions {hasLog : Bool} {onExhaust : Exn → P α} (hs : Stmt i m w s)
    (hp : ∀ w l' s', Stmt i m w s' → Grows s s' → Spec i p (Ends i m Q) l' s')
    (hx : ∀ e w l' s', Stmt i m w s' → Grows s s' → Spec i (onExhaust e) (Ends i m Q) l' s') :
    Spec i (P.handleExceptions hasLog onExhaust p) (Ends i m Q) l s :=
  P.safe_handleExceptions hs hp hx

end Spec

end Composition

end YtScheduler
