import Lob.Book.Runs

/-!
# The strong exception guarantee

A call that fails in an allocation may leave empty levels and unmasked tiers behind. The book still
represents the same reference book, so that neither an observation nor a later call tells them apart.
-/

namespace Lob

open Basis

namespace OrderBook

variable {b b' : OrderBook} {r : ReferenceBook}

/-- The results of a run whose allocations may fail, none for a call that threw. -/
def attemptCalls : List (Alloc × Call) → Book (List (Option Bool))
  | [] => return []
  | (al, call) :: calls => do
    let result ← attempt (call.onBook al)
    return result :: (← attemptCalls calls)

/-- **A run of attempts**, by induction on it. -/
theorem attemptCalls_represents (calls : List (Alloc × Call)) :
    ∀ {b r}, Represents b r →
      ∃ results b' r', (attemptCalls calls).run b = .ok results b' ∧ Represents b' r' := by
  induction calls with
  | nil => exact fun h => ⟨_, _, _, rfl, h⟩
  | cons head calls ih =>
    obtain ⟨al, call⟩ := head
    intro b r h
    obtain ⟨result, b₁, r₁, run₁, h₁⟩ : ∃ result b₁ r₁,
        (attempt (call.onBook al)).run b = .ok result b₁ ∧ Represents b₁ r₁ := by
      rcases call_simulates al call h with ⟨b₁, run₁, h₁, _⟩ | ⟨b₁, run₁, h₁, _⟩
      · exact ⟨_, b₁, _, attempt_ok run₁, h₁⟩
      · exact ⟨_, b₁, _, attempt_badAlloc run₁, h₁⟩
    obtain ⟨results, b₂, r₂, run₂, h₂⟩ := ih h₁
    refine ⟨result :: results, b₂, r₂, ?_, h₂⟩
    unfold attemptCalls
    rw [run_bind_ok run₁, run_bind_ok run₂]
    rfl

/-- Books that represent the same reference book cannot be told apart. -/
theorem Represents.same_runs (h : Represents b r) (h' : Represents b' r)
    {calls calls' : List (Placement × Call)} (hcalls : calls'.map Prod.snd = calls.map Prod.snd) :
    ∃ results c c', (runCalls calls).run b = .ok results c ∧
      (runCalls calls').run b' = .ok results c' ∧ SameObservations c c' := by
  obtain ⟨c, run, hc, _⟩ := runCalls_simulates calls h
  obtain ⟨c', run', hc', _⟩ := runCalls_simulates calls' h'
  rw [hcalls] at run' hc'
  exact ⟨_, c, c', run, run', hc.observes.same hc'.observes⟩

/-- **Strong exception guarantee.** After any run of calls, some of which may have thrown, a call
returns or throws `bad_alloc`. When it throws, every observation is as before, and later calls whose
allocations succeed return and show the same as without it. -/
theorem throws_leave_no_trace (calls : List (Alloc × Call)) :
    ∃ results b, (attemptCalls calls).run empty = .ok results b ∧ ∀ (al : Alloc) (call : Call),
      (∃ result b', (call.onBook al).run b = .ok result b') ∨
      ∃ b', (call.onBook al).run b = .error .badAlloc b' ∧ SameObservations b b' ∧
        ∀ later later' : List (Placement × Call), later'.map Prod.snd = later.map Prod.snd →
          ∃ results c c', (runCalls later).run b = .ok results c ∧
            (runCalls later').run b' = .ok results c' ∧ SameObservations c c' := by
  obtain ⟨results, b, r, run, h⟩ := attemptCalls_represents calls empty_represents
  refine ⟨results, b, run, fun al call => ?_⟩
  rcases call_simulates al call h with ⟨b', run', _, _⟩ | ⟨b', run', h', _⟩
  · exact Or.inl ⟨_, b', run'⟩
  · exact Or.inr ⟨b', run', h.observes.same h'.observes, fun _ _ hlater => h.same_runs h' hlater⟩

end OrderBook

end Lob
