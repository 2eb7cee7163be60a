import Lob.Engine.Runs
import Mathlib.Data.List.Monad

/-!
# Sequential replay

The left fold of `apply` over a list of events. It does not fail, and the engine it ends with
represents the reference engine that has seen the same events, whatever the placements were.
-/

namespace Lob

open Basis

theorem ReplayStats.record_messages (stats : ReplayStats) (action : ApplyAction) :
    (stats.record action).messages = stats.messages + 1 := by
  cases action <;> rfl

def ReferenceEngine.replay (m : ReferenceEngine) (events : List ItchEvent) : ReferenceEngine :=
  events.foldl (fun m event => (m.apply event).2) m

namespace MatchingEngine

/-- The results of the events, in order, each applied with a placement of its own. -/
def replay (calls : List (Placement × ItchEvent)) : Engine (List ApplyResult) :=
  calls.foldlM (fun results call => do
    let result ← apply (.reliable call.1) call.2
    return results ++ [result]) []

variable {limits : EngineLimits} {calls : List (Placement × ItchEvent)} {results : List ApplyResult}
  {e e' e'' : MatchingEngine}

theorem replay_concat {place : Placement} {event : ItchEvent} {result : ApplyResult}
    (run : (replay calls).run e = .ok results e')
    (run' : (apply (.reliable place) event).run e' = .ok result e'') :
    (replay (calls ++ [(place, event)])).run e = .ok (results ++ [result]) e'' := by
  unfold replay at run ⊢
  rw [List.foldlM_append, run_bind_ok run, List.foldlM_cons, bind_assoc, run_bind_ok run']
  rfl

/-- The engine after these events. -/
structure Replayed (limits : EngineLimits) (calls : List (Placement × ItchEvent))
    (results : List ApplyResult) (e : MatchingEngine) : Prop where
  run : (replay calls).run (new limits) = .ok results e
  represents : Represents e ((ReferenceEngine.new limits).replay (calls.map Prod.snd))
  messages : e.stats.messages = BitVec.ofNat 64 calls.length

theorem new_replayed (limits : EngineLimits) : Replayed limits [] [] (new limits) :=
  ⟨rfl, new_represents limits, rfl⟩

/-- **One more event.** -/
theorem Replayed.apply (h : Replayed limits calls results e) (place : Placement)
    (event : ItchEvent) :
    ∃ result e', (MatchingEngine.apply (.reliable place) event).run e = .ok result e' ∧
      Replayed limits (calls ++ [(place, event)]) (results ++ [result]) e' := by
  obtain ⟨e', run, hrep, hstats, _⟩ := apply_simulates h.represents place event
  refine ⟨_, e', run, replay_concat h.run run, ?_, ?_⟩
  · unfold ReferenceEngine.replay
    rw [List.map_append, List.foldl_append]
    exact hrep
  · rw [hstats, ReplayStats.record_messages, h.messages, List.length_append, BitVec.ofNat_add]
    rfl

end MatchingEngine

end Lob
