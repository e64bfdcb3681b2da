import YtScheduler.Threads.Rely
import YtScheduler.Services.Machine

/-! The rules of composition for the loops and the exception handlers that the services
use, under any contract and for any assertion that is kept whatever the outcome. -/

namespace YtScheduler

open Threads

variable {C : Contract Op Loc Shared} {i n : ℕ} {α W : Type} {w : W} {l : Loc} {s : Shared}
  {K : W → Loc → Shared → Prop} {A : α → W → Loc → Shared → Prop} {p : P α}

theorem Pool.safe_loop {iter : P Unit} (hK : K w l s)
    (hb : ∀ w l' s', K w l' s' → C.grows s s' →
      Safe system C i iter (Safe.Keeps K fun _ _ _ _ => True) l' s') :
    Safe system C i (Pool.loop iter n) (Safe.Keeps K fun _ _ _ _ => True) l s := by
  induction n generalizing w l s with
  | zero => exact ⟨w, hK, trivial⟩
  | succ n ih =>
    refine Safe.keeps_bind (hb w l s hK (C.grows_refl s)) fun _ w' l' s' hK' _ hg => ?_
    exact ih hK' fun w'' l'' s'' hK'' hg' => hb w'' l'' s'' hK'' (C.grows_trans _ _ _ hg hg')

theorem P.safe_retrier {exceptions : Exn → Bool} {onExhaust : Exn → P α} (hK : K w l s)
    (hp : ∀ w l' s', K w l' s' → C.grows s s' → Safe system C i p (Safe.Keeps K A) l' s')
    (hx : ∀ e w l' s', K w l' s' → C.grows s s' →
      Safe system C i (onExhaust e) (Safe.Keeps K A) l' s') :
    Safe system C i (P.retrier exceptions onExhaust p n) (Safe.Keeps K A) l s := by
  induction n generalizing w l s with
  | zero =>
    refine Safe.keeps_catching (hp w l s hK (C.grows_refl s)) fun e w' l' s' hK' hg => ?_
    split_ifs
    · exact hx e w' l' s' hK' hg
    · exact ⟨w', hK'⟩
  | succ n ih =>
    refine Safe.keeps_catching (hp w l s hK (C.grows_refl s)) fun e w' l' s' hK' hg => ?_
    split_ifs
    · exact ih hK' (fun w'' l'' s'' hK'' hg' => hp w'' l'' s'' hK'' (C.grows_trans _ _ _ hg hg'))
        fun e w'' l'' s'' hK'' hg' => hx e w'' l'' s'' hK'' (C.grows_trans _ _ _ hg hg')
    · exact ⟨w', hK'⟩

theorem P.safe_handleExceptions {hasLog : Bool} {onExhaust : Exn → P α} (hK : K w l s)
    (hp : ∀ w l' s', K w l' s' → C.grows s s' → Safe system C i p (Safe.Keeps K A) l' s')
    (hx : ∀ e w l' s', K w l' s' → C.grows s s' →
      Safe system C i (onExhaust e) (Safe.Keeps K A) l' s') :
    Safe system C i (P.handleExceptions hasLog onExhaust p) (Safe.Keeps K A) l s := by
  refine Safe.keeps_catching (hp w l s hK (C.grows_refl s)) fun e w' l' s' hK' hg => ?_
  split_ifs
  · exact safe_retrier hK'
      (fun w'' l'' s'' hK'' hg' => hp w'' l'' s'' hK'' (C.grows_trans _ _ _ hg hg'))
      fun e w'' l'' s'' hK'' hg' => hx e w'' l'' s'' hK'' (C.grows_trans _ _ _ hg hg')
  · exact ⟨w', hK'⟩
  · exact ⟨w', hK'⟩

end YtScheduler
