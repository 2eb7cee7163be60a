import Lob.Basis.Runs
import Mathlib.Data.Fintype.Order

/-!
# Progress under fair schedules

Every action belongs to a thread. In each state one thread can help: a step of it lowers a rank that no
step raises, and until then the others leave the rank and the helper as they are. So the rank comes down
to zero however the threads are scheduled, as long as each gets its turns.
-/

namespace Basis

variable {ε σ α β κ : Type} {step : α → EStateM ε σ (List β)} {P : List β → σ → Prop}
  {rank : σ → ℕ} {helper : σ → κ} {thread : α → κ}

/-- A step of thread `k`. Where the rank stays above zero, so does the helper, and it is another
thread. -/
def Advances (rank : σ → ℕ) (helper : σ → κ) (k : κ) (s s' : σ) : Prop :=
  rank s' ≤ rank s ∧ (rank s' = rank s → rank s = 0 ∨ helper s' = helper s ∧ helper s ≠ k)

/-- No step fails, each preserves `P`, and each advances. -/
def Progresses (step : α → EStateM ε σ (List β)) (P : List β → σ → Prop) (rank : σ → ℕ)
    (helper : σ → κ) (thread : α → κ) : Prop :=
  ∀ {before s} action, P before s → ∃ events s', (step action).run s = .ok events s' ∧
    P (before ++ events) s' ∧ Advances rank helper (thread action) s s'

/-- Every thread takes a turn. -/
def IsRound (thread : α → κ) (actions : List α) : Prop := ∀ k, ∃ action ∈ actions, thread action = k

/-- Every thread takes turns again and again. -/
def Fair (thread : α → κ) (schedule : ℕ → α) : Prop := ∀ k n, ∃ m, n ≤ m ∧ thread (schedule m) = k

theorem advances_of_lt {k : κ} {s s' : σ} (h : rank s' < rank s) : Advances rank helper k s s' :=
  ⟨h.le, fun heq => absurd heq h.ne⟩

theorem advances_of_eq {k : κ} {s s' : σ} (hrank : rank s' = rank s) (hhelper : helper s' = helper s)
    (hother : helper s ≠ k) : Advances rank helper k s s' :=
  ⟨hrank.le, fun _ => Or.inr ⟨hhelper, hother⟩⟩

theorem advances_of_zero {k : κ} {s s' : σ} (hrank : rank s' = rank s) (hzero : rank s = 0) :
    Advances rank helper k s s' :=
  ⟨hrank.le, fun _ => Or.inl hzero⟩

/-- What is left of the rank after any actions: if all of it, the helper was not among them. -/
theorem Progresses.trace (h : Progresses step P rank helper thread) (actions : List α) :
    ∀ {before s}, P before s → ∃ events s', (trace step actions).run s = .ok events s' ∧
      P (before ++ events) s' ∧ rank s' ≤ rank s ∧ (rank s' = rank s → rank s = 0 ∨
        helper s' = helper s ∧ ∀ action ∈ actions, thread action ≠ helper s) := by
  induction actions with
  | nil =>
    intro before s hs
    exact ⟨[], s, rfl, by rwa [List.append_nil], le_rfl, fun _ => Or.inr ⟨rfl, nofun⟩⟩
  | cons action actions ih =>
    intro before s hs
    obtain ⟨events₁, s₁, run₁, h₁, hle₁, hkeep₁⟩ := h action hs
    obtain ⟨events₂, s₂, run₂, h₂, hle₂, hkeep₂⟩ := ih h₁
    refine ⟨_, s₂, trace_cons_ok run₁ run₂, by rwa [← List.append_assoc], hle₂.trans hle₁,
      fun heq => ?_⟩
    have heq₁ : rank s₁ = rank s := le_antisymm hle₁ (heq ▸ hle₂)
    rcases hkeep₁ heq₁ with hzero | ⟨hhelper₁, hother₁⟩
    · exact Or.inl hzero
    rcases hkeep₂ (heq.trans heq₁.symm) with hzero | ⟨hhelper₂, hothers₂⟩
    · exact Or.inl (heq₁ ▸ hzero)
    refine Or.inr ⟨hhelper₂.trans hhelper₁, fun other hmem => ?_⟩
    rcases List.mem_cons.mp hmem with rfl | hrest
    · exact hother₁.symm
    · exact hhelper₁ ▸ hothers₂ other hrest

/-- **A round** lowers the rank, unless it is zero. -/
theorem Progresses.round (h : Progresses step P rank helper thread) {actions : List α}
    (hround : IsRound thread actions) {before : List β} {s : σ} (hs : P before s) :
    ∃ events s', (Basis.trace step actions).run s = .ok events s' ∧ P (before ++ events) s' ∧
      rank s' ≤ rank s - 1 := by
  obtain ⟨events, s', run, hp, hle, hkeep⟩ := h.trace actions hs
  refine ⟨events, s', run, hp, ?_⟩
  by_cases heq : rank s' = rank s
  · rcases hkeep heq with hzero | ⟨_, hothers⟩
    · omega
    · obtain ⟨action, hmem, hthread⟩ := hround (helper s)
      exact absurd hthread (hothers action hmem)
  · omega

/-- **Rounds.** As many of them as the rank says are enough, whatever comes after. -/
theorem Progresses.rounds (h : Progresses step P rank helper thread) (rounds : List (List α))
    (hrounds : ∀ round ∈ rounds, IsRound thread round) (more : List α) :
    ∀ {before s}, P before s → ∃ events s',
      (Basis.trace step (rounds.flatten ++ more)).run s = .ok events s' ∧ P (before ++ events) s' ∧
        rank s' ≤ rank s - rounds.length := by
  induction rounds with
  | nil =>
    intro before s hs
    obtain ⟨events, s', run, hp, hle, _⟩ := h.trace more hs
    exact ⟨events, s', run, hp, hle⟩
  | cons round rounds ih =>
    intro before s hs
    obtain ⟨events₁, s₁, run₁, h₁, hle₁⟩ := h.round (hrounds round List.mem_cons_self) hs
    obtain ⟨events₂, s₂, run₂, h₂, hle₂⟩ :=
      ih (fun other hmem => hrounds other (List.mem_cons_of_mem _ hmem)) h₁
    refine ⟨events₁ ++ events₂, s₂, ?_, by rwa [← List.append_assoc], ?_⟩
    · rw [List.flatten_cons, List.append_assoc]
      exact trace_append_ok run₁ run₂
    · rw [List.length_cons]
      omega

/-! ## Fair schedules -/

/-- The first `n` actions of a schedule. -/
def firstActions (schedule : ℕ → α) (n : ℕ) : List α := (List.range n).map schedule

theorem firstActions_add (schedule : ℕ → α) (n m : ℕ) : firstActions schedule (n + m) =
    firstActions schedule n ++ (List.range m).map fun i => schedule (n + i) := by
  unfold firstActions
  rw [List.range_add, List.map_append, List.map_map]
  rfl

/-- From any turn on, a fair schedule has a round. -/
theorem Fair.round [Finite κ] {schedule : ℕ → α} (h : Fair thread schedule) (n : ℕ) :
    ∃ m, IsRound thread ((List.range m).map fun i => schedule (n + i)) := by
  choose turn hlater hturn using fun k => h k n
  obtain ⟨last, hlast⟩ := Finite.exists_le turn
  refine ⟨last - n + 1, fun k => ⟨schedule (turn k), List.mem_map.mpr ⟨turn k - n, ?_, ?_⟩, hturn k⟩⟩
  · have hle := hlast k
    rw [List.mem_range]
    omega
  · rw [Nat.add_sub_cancel' (hlater k)]

theorem Fair.rounds [Finite κ] {schedule : ℕ → α} (h : Fair thread schedule) (count : ℕ) :
    ∃ (rounds : List (List α)) (n : ℕ), rounds.length = count ∧
      (∀ round ∈ rounds, IsRound thread round) ∧ rounds.flatten = firstActions schedule n := by
  induction count with
  | zero => exact ⟨[], 0, rfl, nofun, rfl⟩
  | succ count ih =>
    obtain ⟨rounds, n, hlength, hrounds, hflatten⟩ := ih
    obtain ⟨m, hround⟩ := h.round n
    refine ⟨rounds ++ [(List.range m).map fun i => schedule (n + i)], n + m, ?_, ?_, ?_⟩
    · rw [List.length_append, List.length_singleton, hlength]
    · intro round hmem
      rcases List.mem_append.mp hmem with hold | hnew
      · exact hrounds round hold
      · rw [List.mem_singleton.mp hnew]
        exact hround
    · rw [List.flatten_append, hflatten, List.flatten_singleton, firstActions_add]

/-- **A fair schedule brings the rank down to zero**, and it stays there. -/
theorem Progresses.fair [Finite κ] (h : Progresses step P rank helper thread) {schedule : ℕ → α}
    (hfair : Fair thread schedule) {s : σ} (hs : P [] s) :
    ∃ n, ∀ m, n ≤ m → ∃ events s', (Basis.trace step (firstActions schedule m)).run s =
      .ok events s' ∧ P events s' ∧ rank s' = 0 := by
  obtain ⟨rounds, n, hlength, hrounds, hflatten⟩ := hfair.rounds (rank s)
  refine ⟨n, fun m hm => ?_⟩
  obtain ⟨more, rfl⟩ := Nat.exists_eq_add_of_le hm
  obtain ⟨events, s', run, hp, hle⟩ :=
    h.rounds rounds hrounds ((List.range more).map fun i => schedule (n + i)) hs
  rw [hflatten, ← firstActions_add] at run
  exact ⟨events, s', run, hp, by omega⟩

end Basis
