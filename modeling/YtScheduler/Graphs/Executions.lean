import Mathlib.Algebra.Order.BigOperators.Group.List
import Mathlib.Algebra.Order.Ring.Nat
import YtScheduler.Graphs.Acyclic

/-! The execution of finitely many nodes that depend on each other. A node waits until all it
depends on is over, is started, and succeeds or fails; after a failure what was not started is
dropped. Every step lowers a potential, and an execution without a cycle that is not over can make
one: it ends, with the right verdict, whatever the order of its steps. -/

namespace YtScheduler.Graphs

inductive Phase
  | waiting
  | ready
  | active
  | done
  | failed
  | dropped
  deriving DecidableEq

namespace Phase

def IsOver : Phase → Prop
  | done => True
  | failed => True
  | dropped => True
  | _ => False

/-- How many steps a node may still make. -/
def cost : Phase → ℕ
  | waiting => 3
  | ready => 2
  | active => 1
  | _ => 0

theorem cost_eq_zero {p : Phase} (h : p.IsOver) : p.cost = 0 := by
  cases p <;> first | rfl | exact h.elim

theorem cost_le (p : Phase) : p.cost ≤ 3 := by cases p <;> decide

end Phase

/-- The phases of the nodes, and whether the execution as a whole succeeded, once that is known. -/
@[ext] structure Execution (ν : Type) where
  phase : ν → Phase
  verdict : Option Bool

namespace Execution

variable {ν : Type} (dep : ν → ν → Prop) (nodes : List ν)

/-- The nodes that a release makes ready. -/
def Free (e : Execution ν) (n : ν) : Prop :=
  e.phase n = .waiting ∧ ∀ m ∈ nodes, dep m n → (e.phase m).IsOver

/-- Of the nodes, only `n` changes. -/
def Moves (n : ν) (p : Phase) (e e' : Execution ν) : Prop :=
  e'.phase n = p ∧ (∀ m ∈ nodes, m ≠ n → e'.phase m = e.phase m) ∧ e'.verdict = e.verdict

inductive Step (e e' : Execution ν) : Prop
  | release (hverdict : e.verdict = none) (hkept : e'.verdict = none)
      (hhealthy : ∀ n ∈ nodes, e.phase n ≠ .failed)
      (hfree : ∀ n ∈ nodes, e.Free dep nodes n → e'.phase n = .ready)
      (hother : ∀ n ∈ nodes, ¬e.Free dep nodes n → e'.phase n = e.phase n)
      (hsome : ∃ n ∈ nodes, e.Free dep nodes n)
  | start (n : ν) (hn : n ∈ nodes) (hready : e.phase n = .ready) (hmoves : e.Moves nodes n .active e')
  | succeed (n : ν) (hn : n ∈ nodes) (hactive : e.phase n = .active) (hmoves : e.Moves nodes n .done e')
  | fail (n : ν) (hn : n ∈ nodes) (hactive : e.phase n = .active) (hmoves : e.Moves nodes n .failed e')
  | stop (hverdict : e.verdict = none) (hgiven : e'.verdict = some false)
      (hfailed : ∃ n ∈ nodes, e.phase n = .failed)
      (hdropped : ∀ n ∈ nodes, e.phase n = .waiting ∨ e.phase n = .ready → e'.phase n = .dropped)
      (hother : ∀ n ∈ nodes, e.phase n ≠ .waiting → e.phase n ≠ .ready → e'.phase n = e.phase n)
  | conclude (hverdict : e.verdict = none) (hgiven : e'.verdict = some true)
      (hdone : ∀ n ∈ nodes, e.phase n = .done) (hkept : ∀ n ∈ nodes, e'.phase n = .done)

/-- The verdict fits the phases. -/
structure Sound (e : Execution ν) : Prop where
  undropped : e.verdict = none → ∀ n ∈ nodes, e.phase n ≠ .dropped
  success : e.verdict = some true → ∀ n ∈ nodes, e.phase n = .done
  failure : e.verdict = some false → ∃ n ∈ nodes, e.phase n = .failed
  stopped : e.verdict = some false → ∀ n ∈ nodes, e.phase n ≠ .waiting ∧ e.phase n ≠ .ready

/-- There is a verdict, and all nodes are over. -/
structure Over (e : Execution ν) : Prop where
  verdict : e.verdict ≠ none
  nodes : ∀ n ∈ nodes, (e.phase n).IsOver

/-- A bound of the steps that are left. -/
def potential (e : Execution ν) : ℕ :=
  (nodes.map fun n => (e.phase n).cost).sum + if e.verdict = none then 1 else 0

variable {dep nodes} {e e' : Execution ν}

theorem potential_le (e : Execution ν) (nodes : List ν) : e.potential nodes ≤ 3 * nodes.length + 1 := by
  have hsum : (nodes.map fun n => (e.phase n).cost).sum ≤ nodes.length * 3 := by
    refine (List.sum_le_card_nsmul _ 3 fun c hc => ?_).trans_eq (by simp)
    obtain ⟨n, _, rfl⟩ := List.mem_map.mp hc
    exact (e.phase n).cost_le
  rw [potential]
  split_ifs <;> omega

theorem Over.potential_eq (h : e.Over nodes) : e.potential nodes = 0 := by
  have hsum : (nodes.map fun n => (e.phase n).cost).sum = 0 := by
    refine List.sum_eq_zero fun c hc => ?_
    obtain ⟨n, hn, rfl⟩ := List.mem_map.mp hc
    exact Phase.cost_eq_zero (h.nodes n hn)
  rw [potential, hsum, if_neg h.verdict]

/-! ### Every step lowers the potential -/

theorem sum_cost_le (h : ∀ n ∈ nodes, (e'.phase n).cost ≤ (e.phase n).cost) :
    (nodes.map fun n => (e'.phase n).cost).sum ≤ (nodes.map fun n => (e.phase n).cost).sum :=
  List.sum_le_sum h

theorem sum_cost_lt (h : ∀ n ∈ nodes, (e'.phase n).cost ≤ (e.phase n).cost)
    (hlt : ∃ n ∈ nodes, (e'.phase n).cost < (e.phase n).cost) :
    (nodes.map fun n => (e'.phase n).cost).sum < (nodes.map fun n => (e.phase n).cost).sum :=
  List.sum_lt_sum _ _ h hlt

/-- A step of one node to a later phase. -/
theorem Moves.potential_lt {n : ν} {p : Phase} (h : e.Moves nodes n p e') (hn : n ∈ nodes)
    (hlt : p.cost < (e.phase n).cost) : e'.potential nodes < e.potential nodes := by
  obtain ⟨hphase, hother, hverdict⟩ := h
  have hsum : (nodes.map fun n => (e'.phase n).cost).sum < (nodes.map fun n => (e.phase n).cost).sum := by
    refine sum_cost_lt (fun m hm => ?_) ⟨n, hn, by rwa [hphase]⟩
    by_cases hmn : m = n
    · rw [hmn, hphase]
      exact hlt.le
    · rw [hother m hm hmn]
  rw [potential, potential, hverdict]
  omega

theorem Step.potential_lt (h : Step dep nodes e e') : e'.potential nodes < e.potential nodes := by
  cases h with
  | release hverdict hkept hhealthy hfree hother hsome =>
    have hsum : (nodes.map fun n => (e'.phase n).cost).sum < (nodes.map fun n => (e.phase n).cost).sum := by
      refine sum_cost_lt (fun n hn => ?_) ?_
      · by_cases hf : e.Free dep nodes n
        · rw [hfree n hn hf, hf.1]
          decide
        · rw [hother n hn hf]
      · obtain ⟨n, hn, hf⟩ := hsome
        exact ⟨n, hn, by rw [hfree n hn hf, hf.1]; decide⟩
    rw [potential, potential, hverdict, hkept]
    omega
  | start n hn hready hmoves => exact hmoves.potential_lt hn (by rw [hready]; decide)
  | succeed n hn hactive hmoves => exact hmoves.potential_lt hn (by rw [hactive]; decide)
  | fail n hn hactive hmoves => exact hmoves.potential_lt hn (by rw [hactive]; decide)
  | stop hverdict hgiven hfailed hdropped hother =>
    have hsum : (nodes.map fun n => (e'.phase n).cost).sum ≤ (nodes.map fun n => (e.phase n).cost).sum := by
      refine sum_cost_le fun n hn => ?_
      by_cases hw : e.phase n = .waiting ∨ e.phase n = .ready
      · rw [hdropped n hn hw]
        exact Nat.zero_le _
      · rw [not_or] at hw
        rw [hother n hn hw.1 hw.2]
    rw [potential, potential, hverdict, hgiven]
    simp only [if_true, reduceCtorEq, if_false]
    omega
  | conclude hverdict hgiven hdone hkept =>
    have hsum : (nodes.map fun n => (e'.phase n).cost).sum ≤ (nodes.map fun n => (e.phase n).cost).sum := by
      refine sum_cost_le fun n hn => ?_
      rw [hkept n hn, hdone n hn]
    rw [potential, potential, hverdict, hgiven]
    simp only [if_true, reduceCtorEq, if_false]
    omega

/-! ### Every step keeps the verdict right -/

/-- A node that is started or ends. -/
theorem Moves.sound {n : ν} {p : Phase} (h : e.Moves nodes n p e') (hs : e.Sound nodes) (hn : n ∈ nodes)
    (hold : e.phase n = .ready ∨ e.phase n = .active) (hp : p = .active ∨ p = .done ∨ p = .failed) :
    e'.Sound nodes := by
  obtain ⟨hphase, hother, hverdict⟩ := h
  have hcases : ∀ m ∈ nodes, e'.phase m = p ∨ e'.phase m = e.phase m := by
    intro m hm
    by_cases hmn : m = n
    · exact Or.inl (hmn ▸ hphase)
    · exact Or.inr (hother m hm hmn)
  refine ⟨fun hv m hm => ?_, fun hv => ?_, fun hv => ?_, fun hv m hm => ?_⟩
  · rcases hcases m hm with he | he
    · rw [he]
      rcases hp with rfl | rfl | rfl <;> simp
    · rw [he]
      exact hs.undropped (hverdict ▸ hv) m hm
  · -- a node of an execution that succeeded is done
    have hdone := hs.success (hverdict ▸ hv) n hn
    rcases hold with hold | hold <;> rw [hold] at hdone <;> cases hdone
  · obtain ⟨m, hm, hfailed⟩ := hs.failure (hverdict ▸ hv)
    have hmn : m ≠ n := by
      rintro rfl
      rcases hold with hold | hold <;> rw [hold] at hfailed <;> cases hfailed
    exact ⟨m, hm, (hother m hm hmn).trans hfailed⟩
  · rcases hcases m hm with he | he
    · rw [he]
      rcases hp with rfl | rfl | rfl <;> simp
    · rw [he]
      exact hs.stopped (hverdict ▸ hv) m hm

theorem Step.sound (h : Step dep nodes e e') (hs : e.Sound nodes) : e'.Sound nodes := by
  cases h with
  | release hverdict hkept hhealthy hfree hother hsome =>
    refine ⟨fun _ n hn => ?_, by simp [hkept], by simp [hkept], by simp [hkept]⟩
    by_cases hf : e.Free dep nodes n
    · simp [hfree n hn hf]
    · rw [hother n hn hf]
      exact hs.undropped hverdict n hn
  | start n hn hready hmoves => exact hmoves.sound hs hn (Or.inl hready) (Or.inl rfl)
  | succeed n hn hactive hmoves => exact hmoves.sound hs hn (Or.inr hactive) (Or.inr (Or.inl rfl))
  | fail n hn hactive hmoves => exact hmoves.sound hs hn (Or.inr hactive) (Or.inr (Or.inr rfl))
  | stop hverdict hgiven hfailed hdropped hother =>
    refine ⟨by simp [hgiven], by simp [hgiven], fun _ => ?_, fun _ n hn => ?_⟩
    · obtain ⟨n, hn, hf⟩ := hfailed
      exact ⟨n, hn, by rw [hother n hn (by simp [hf]) (by simp [hf]), hf]⟩
    · by_cases hw : e.phase n = .waiting ∨ e.phase n = .ready
      · simp [hdropped n hn hw]
      · rw [not_or] at hw
        rwa [hother n hn hw.1 hw.2]
  | conclude hverdict hgiven hdone hkept =>
    exact ⟨by simp [hgiven], fun _ => hkept, by simp [hgiven], by simp [hgiven]⟩

/-- At the end all nodes are done, or some have failed. -/
theorem Sound.over (hs : e.Sound nodes) (h : e.Over nodes) :
    (e.verdict = some true ∧ ∀ n ∈ nodes, e.phase n = .done) ∨
      (e.verdict = some false ∧ ∃ n ∈ nodes, e.phase n = .failed) := by
  obtain ⟨b, hb⟩ := Option.ne_none_iff_exists'.mp h.verdict
  cases b with
  | true => exact Or.inl ⟨hb, hs.success hb⟩
  | false => exact Or.inr ⟨hb, hs.failure hb⟩

/-! ### An execution that is not over goes on -/

/-- The kinds of steps that an execution can make. -/
inductive Enabled (dep : ν → ν → Prop) (nodes : List ν) (e : Execution ν) : Prop
  | release (hverdict : e.verdict = none) (hhealthy : ∀ n ∈ nodes, e.phase n ≠ .failed)
      (hsome : ∃ n ∈ nodes, e.Free dep nodes n)
  | start (n : ν) (hn : n ∈ nodes) (hready : e.phase n = .ready)
  | finish (n : ν) (hn : n ∈ nodes) (hactive : e.phase n = .active)
  | stop (hverdict : e.verdict = none) (hfailed : ∃ n ∈ nodes, e.phase n = .failed)
  | conclude (hverdict : e.verdict = none) (hdone : ∀ n ∈ nodes, e.phase n = .done)

/-- Without a cycle there is no dead end. -/
theorem Sound.enabled (hs : e.Sound nodes) (hacyclic : Acyclic dep) (h : ¬e.Over nodes) :
    e.Enabled dep nodes := by
  by_cases hready : ∃ n ∈ nodes, e.phase n = .ready
  · obtain ⟨n, hn, hready⟩ := hready
    exact .start n hn hready
  by_cases hactive : ∃ n ∈ nodes, e.phase n = .active
  · obtain ⟨n, hn, hactive⟩ := hactive
    exact .finish n hn hactive
  simp only [not_exists, not_and] at hready hactive
  have hover : ∀ n ∈ nodes, e.phase n ≠ .waiting → (e.phase n).IsOver := by
    intro n hn hw
    cases hphase : e.phase n with
    | waiting => exact absurd hphase hw
    | ready => exact absurd hphase (hready n hn)
    | active => exact absurd hphase (hactive n hn)
    | _ => trivial
  cases hverdict : e.verdict with
  | some b =>
    -- after the verdict nothing waits
    refine absurd ⟨by simp [hverdict], fun n hn => hover n hn fun hw => ?_⟩ h
    cases b with
    | true => simp [hs.success hverdict n hn] at hw
    | false => exact (hs.stopped hverdict n hn).1 hw
  | none =>
    by_cases hfailed : ∃ n ∈ nodes, e.phase n = .failed
    · exact .stop hverdict hfailed
    simp only [not_exists, not_and] at hfailed
    let waiting := nodes.filter fun n => decide (e.phase n = .waiting)
    have hmem : ∀ {n}, n ∈ waiting ↔ n ∈ nodes ∧ e.phase n = .waiting := by
      intro n
      rw [List.mem_filter, decide_eq_true_eq]
    by_cases hnone : waiting = []
    · refine .conclude hverdict fun n hn => ?_
      have hw : e.phase n ≠ .waiting := fun hw => by
        have hn' := hmem.mpr ⟨hn, hw⟩
        rw [hnone] at hn'
        cases hn'
      have hdropped := hs.undropped hverdict n hn
      have hhealthy := hfailed n hn
      cases hphase : e.phase n with
      | done => rfl
      | waiting => exact absurd hphase hw
      | ready => exact absurd hphase (hready n hn)
      | active => exact absurd hphase (hactive n hn)
      | failed => exact absurd hphase hhealthy
      | dropped => exact absurd hphase hdropped
    · -- a first one among those that wait depends on nodes that are over
      obtain ⟨m, hm, hmin⟩ := hacyclic.exists_minimal hnone
      refine .release hverdict hfailed ⟨m, (hmem.mp hm).1, (hmem.mp hm).2, fun n hn hdep => ?_⟩
      exact hover n hn fun hw => hmin n (hmem.mpr ⟨hn, hw⟩) hdep

end Execution

end YtScheduler.Graphs
