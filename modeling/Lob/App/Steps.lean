import Lob.App.Shutdown

/-!
# The steps of the replay

Everything that a step of either thread can do to the variables of `main`, and what it emits.
-/

namespace Lob

open Basis

/-! ## Why the replay fails -/

/-- The `decode_error` of a read that gives no event. -/
def FrameRead.reason : FrameRead → String
  | .frame bytes =>
    match decodeFrame bytes with
    | .ok (.error reason) => reason
    | _ => ""
  | .error reason => reason

/-- The reason of the first error before the end of the file. -/
def errorText : List FrameRead → String
  | [] => ""
  | read :: reads =>
    match read.event? with
    | some _ => errorText reads
    | none => read.reason

theorem errorText_some {read : FrameRead} {reads : List FrameRead} {event : ItchEvent}
    (h : read.event? = some event) : errorText (read :: reads) = errorText reads := by
  rw [errorText, h]

theorem errorText_none {read : FrameRead} {reads : List FrameRead} (h : read.event? = none) :
    errorText (read :: reads) = read.reason := by
  rw [errorText, h]

namespace Pipeline

/-! ## Steps -/

variable {s s' : Pipeline} {events : List ReplayEvent}

/-- What a step of the producer can do. -/
inductive ProducerMoves (moved : ItchEvent → ItchEvent) (s : Pipeline) :
    List ReplayEvent → Pipeline → Prop
  | ends : s.producer = .reading → s.reads = [] →
    ProducerMoves moved s [] { s with producer := .storeDone }
  | fails {read : FrameRead} {reads : List FrameRead} : s.producer = .reading →
    s.reads = read :: reads → read.event? = none →
    ProducerMoves moved s [] { s with
      reads := reads, decodeError := read.reason, producer := .storeFailed }
  | starts {read : FrameRead} {reads : List FrameRead} {event : ItchEvent} : s.producer = .reading →
    s.reads = read :: reads → read.event? = some event →
    ProducerMoves moved s [] { s with
      reads := reads, producer := .pushing (.start (moveOf moved) event) }
  | goesOn {call call' : Emplacing ItchEvent ItchEvent} {queue' : SpscRing ItchEvent} :
    s.producer = .pushing call → call.step.run s.queue = .ok (.inl call') queue' →
    ProducerMoves moved s [] { s with queue := queue', producer := .pushing call' }
  | pushed {call : Emplacing ItchEvent ItchEvent} {left : ItchEvent} {queue' : SpscRing ItchEvent} :
    s.producer = .pushing call → call.step.run s.queue = .ok (.inr (.pushed, left)) queue' →
    ProducerMoves moved s [.pushed call.given] { s with
      queue := queue', decodedMessages := s.decodedMessages + 1, producer := .reading }
  | full {call : Emplacing ItchEvent ItchEvent} {left : ItchEvent} {queue' : SpscRing ItchEvent} :
    s.producer = .pushing call → call.step.run s.queue = .ok (.inr (.full, left)) queue' →
    ProducerMoves moved s [] { s with
      queue := queue', producer := .pushing (.start (moveOf moved) left) }
  | storesFailed : s.producer = .storeFailed →
    ProducerMoves moved s [] { s with producerFailed := true, producer := .storeDone }
  | storesDone : s.producer = .storeDone →
    ProducerMoves moved s [] { s with producerDone := true, producer := .finished }
  | rests : s.producer = .finished → ProducerMoves moved s [] s

theorem producerStep_moves {moved : ItchEvent → ItchEvent}
    (run : (producerStep moved).run s = .ok events s') : ProducerMoves moved s events s' := by
  unfold producerStep at run
  rw [run_get_bind] at run
  cases hp : s.producer with
  | reading =>
    simp only [hp] at run
    rw [run_get_bind] at run
    cases hr : s.reads with
    | nil =>
      simp only [hr] at run
      cases run
      exact .ends hp hr
    | cons read reads =>
      cases read with
      | error reason =>
        simp only [hr] at run
        cases run
        exact .fails hp hr rfl
      | frame bytes =>
        simp only [hr] at run
        obtain ⟨decoded, s₁, run₁, run⟩ := of_run_bind_ok run
        obtain ⟨hframe, rfl⟩ := of_observe_ok run₁
        have hevent := FrameRead.event?_frame hframe
        cases decoded with
        | error reason =>
          cases run
          have hreason : (FrameRead.frame bytes).reason = reason := by
            simp only [FrameRead.reason, hframe]
          rw [← hreason]
          exact .fails hp hr hevent
        | ok event =>
          cases run
          exact .starts hp hr hevent
  | pushing call =>
    simp only [hp] at run
    obtain ⟨next, s₁, run₁, run⟩ := of_run_bind_ok run
    obtain ⟨queue', hcall, rfl⟩ := of_zoom_ok run₁
    cases next with
    | inl call' =>
      cases run
      exact .goesOn hp hcall
    | inr returned =>
      obtain ⟨result, left⟩ := returned
      cases result with
      | pushed =>
        cases run
        exact .pushed hp hcall
      | full =>
        cases run
        exact .full hp hcall
      | threw => cases run
  | storeFailed =>
    simp only [hp] at run
    cases run
    exact .storesFailed hp
  | storeDone =>
    simp only [hp] at run
    cases run
    exact .storesDone hp
  | finished =>
    simp only [hp] at run
    cases run
    exact .rests hp

/-- What a step of the consumer can do. -/
inductive ConsumerMoves (place : Placement) (s : Pipeline) : List ReplayEvent → Pipeline → Prop
  | pops : s.consumer = .loadDone → s.producerDone = false →
    ConsumerMoves place s [] { s with consumer := .popping (.start s.queued) }
  | tests : s.consumer = .loadDone → s.producerDone = true →
    ConsumerMoves place s [] { s with consumer := .empty .loadOwn }
  | loads : s.consumer = .empty .loadOwn →
    ConsumerMoves place s [] { s with consumer := .empty (.loadOther s.queue.readIndex) }
  | leaves {read : Index} : s.consumer = .empty (.loadOther read) → read = s.queue.writeIndex →
    ConsumerMoves place s [] { s with consumer := .exited }
  | stays {read : Index} : s.consumer = .empty (.loadOther read) → read ≠ s.queue.writeIndex →
    ConsumerMoves place s [] { s with consumer := .popping (.start s.queued) }
  | goesOn {call call' : Popping ItchEvent} {queue' : SpscRing ItchEvent} :
    s.consumer = .popping call → call.step.run s.queue = .ok (.inl call') queue' →
    ConsumerMoves place s [] { s with queue := queue', consumer := .popping call' }
  | popped {call : Popping ItchEvent} {out : ItchEvent} {queue' : SpscRing ItchEvent} :
    s.consumer = .popping call → call.step.run s.queue = .ok (.inr (true, out)) queue' →
    ConsumerMoves place s [] { s with queue := queue', queued := out, consumer := .applying }
  | empty {call : Popping ItchEvent} {out : ItchEvent} {queue' : SpscRing ItchEvent} :
    s.consumer = .popping call → call.step.run s.queue = .ok (.inr (false, out)) queue' →
    ConsumerMoves place s [] { s with queue := queue', queued := out, consumer := .loadDone }
  | applies {result : ApplyResult} {engine' : MatchingEngine} : s.consumer = .applying →
    (MatchingEngine.apply (.reliable place) s.queued).run s.engine = .ok result engine' →
    ConsumerMoves place s [.applied place s.queued result]
      { s with engine := engine', consumer := .loadDone }
  | joins : s.consumer = .exited → s.producer = .finished →
    ConsumerMoves place s [] { s with consumer := .ended s.producerFailed }
  | waits : s.consumer = .exited → s.producer ≠ .finished → ConsumerMoves place s [] s
  | rests {failed : Bool} : s.consumer = .ended failed → ConsumerMoves place s [] s

theorem consumerStep_moves {place : Placement} (run : (consumerStep place).run s = .ok events s') :
    ConsumerMoves place s events s' := by
  unfold consumerStep at run
  rw [run_get_bind] at run
  cases hc : s.consumer with
  | loadDone =>
    simp only [hc] at run
    rw [run_get_bind] at run
    cases hd : s.producerDone with
    | true =>
      rw [if_pos hd] at run
      cases run
      exact .tests hc hd
    | false =>
      rw [if_neg (by rw [hd]; exact Bool.false_ne_true)] at run
      cases run
      exact .pops hc hd
  | empty point =>
    simp only [hc] at run
    obtain ⟨next, s₁, run₁, run⟩ := of_run_bind_ok run
    obtain ⟨queue', hquery, rfl⟩ := of_zoom_ok run₁
    cases point with
    | loadOwn =>
      cases hquery
      cases run
      exact .loads hc
    | loadOther read =>
      change EStateM.Result.ok (Sum.inr (decide (read = s.queue.writeIndex))) s.queue = _ at hquery
      by_cases hempty : read = s.queue.writeIndex
      · rw [decide_eq_true hempty] at hquery
        cases hquery
        cases run
        exact .leaves hc hempty
      · rw [decide_eq_false hempty] at hquery
        cases hquery
        cases run
        exact .stays hc hempty
  | popping call =>
    simp only [hc] at run
    obtain ⟨next, s₁, run₁, run⟩ := of_run_bind_ok run
    obtain ⟨queue', hcall, rfl⟩ := of_zoom_ok run₁
    cases next with
    | inl call' =>
      cases run
      exact .goesOn hc hcall
    | inr returned =>
      obtain ⟨result, out⟩ := returned
      cases result with
      | true =>
        cases run
        exact .popped hc hcall
      | false =>
        cases run
        exact .empty hc hcall
  | applying =>
    simp only [hc] at run
    rw [run_get_bind] at run
    obtain ⟨result, s₁, run₁, run⟩ := of_run_bind_ok run
    obtain ⟨engine', hrun, rfl⟩ := of_zoom_ok run₁
    cases run
    exact .applies hc hrun
  | exited =>
    simp only [hc] at run
    rw [run_get_bind] at run
    cases hp : s.producer with
    | finished =>
      simp only [hp] at run
      cases run
      exact .joins hc hp
    | _ =>
      simp only [hp] at run
      cases run
      exact .waits hc (by rw [hp]; nofun)
  | ended failed =>
    simp only [hc] at run
    cases run
    exact .rests hc

end Pipeline

end Lob
