import Lob.App.Steps
import Lob.Basis.Progress
import Lob.Spsc.Waiting

/-!
# The replay ends

Neither thread waits for the other for ever. While the producer has something to do and room on the
ring, its next steps get it done; when the ring is full, or the producer is finished, the next steps
of the consumer take an event off the ring or leave the loop. Meanwhile the other thread polls, which
changes nothing. So under every fair schedule the replay of a file ends.
-/

namespace Lob

open Basis

inductive ReplayThread where
  | producer
  | consumer
  deriving DecidableEq

instance : Fintype ReplayThread where
  elems := {.producer, .consumer}
  complete thread := by cases thread <;> decide

def ReplayAction.thread : ReplayAction → ReplayThread
  | .producer => .producer
  | .consumer _ => .consumer

namespace Pipeline

/-! ## The rank -/

/-- What the producer has still to do: each frame is decoded and pushed, and the two flags are stored.
-/
def producerWork (s : Pipeline) : ℕ :=
  match s.producer with
  | .reading => 4 * s.reads.length + 3
  | .pushing _ => 4 * s.reads.length + 6
  | .storeFailed => 2
  | .storeDone => 1
  | .finished => 0

/-- What the consumer has still to do, apart from the events on the ring. -/
def consumerWork (s : Pipeline) : ℕ :=
  match s.consumer with
  | .applying => 3
  | .exited => 1
  | .ended _ => 0
  | _ => 2

/-- An event on the ring is popped and applied. -/
def work (s : Pipeline) : ℕ := s.producerWork + 2 * s.queue.waiting + s.consumerWork

/-- The producer can do nothing before the consumer does something. -/
def Blocked (s : Pipeline) : Prop :=
  match s.producer with
  | .pushing _ => s.queue.waiting = s.queue.capacity.toNat
  | .finished => True
  | _ => False

instance (s : Pipeline) : Decidable s.Blocked := by
  unfold Blocked
  split <;> infer_instance

def helper (s : Pipeline) : ReplayThread := if s.Blocked then .consumer else .producer

/-- The steps of the producer before there is less work, if the ring has room. -/
def producerSteps (s : Pipeline) : ℕ :=
  match s.producer with
  | .pushing call => call.stepsLeft
  | _ => 0

/-- The steps of the consumer before there is less work, if the producer is blocked. -/
def consumerSteps (s : Pipeline) : ℕ :=
  match s.consumer with
  | .loadDone => if s.queue.waiting = 0 then 2 else 6
  | .empty .loadOwn => if s.queue.waiting = 0 then 1 else 5
  | .empty (.loadOther _) => if s.queue.waiting = 0 then 0 else 4
  | .popping call => if s.queue.waiting = 0 then call.stepsLeft + 1 else call.stepsLeft
  | _ => 0

def stepsLeft (s : Pipeline) : ℕ :=
  match s.helper with
  | .producer => s.producerSteps
  | .consumer => s.consumerSteps

/-- Less work outweighs any number of steps. -/
def rank (s : Pipeline) : ℕ := 8 * s.work + s.stepsLeft

variable {s s' : Pipeline}

theorem producerSteps_lt (s : Pipeline) : s.producerSteps < 8 := by
  unfold producerSteps Emplacing.stepsLeft
  split
  · split <;> norm_num
  · norm_num

theorem consumerSteps_lt (s : Pipeline) : s.consumerSteps < 8 := by
  unfold consumerSteps Popping.stepsLeft
  split
  · split_ifs <;> norm_num
  · split_ifs <;> norm_num
  · split_ifs <;> norm_num
  · split_ifs <;> split <;> norm_num
  · norm_num

theorem stepsLeft_lt (s : Pipeline) : s.stepsLeft < 8 := by
  unfold stepsLeft
  split
  · exact producerSteps_lt s
  · exact consumerSteps_lt s

/-- Less work. -/
theorem advances_work {thread : ReplayThread} (h : s'.work < s.work) :
    Advances rank helper thread s s' := by
  refine advances_of_lt ?_
  have hsteps := stepsLeft_lt s'
  unfold rank
  omega

/-- The rank is zero at the end only. -/
theorem rank_eq_zero (h : s.rank = 0) : ∃ failed, s.consumer = .ended failed := by
  have hwork : s.consumerWork = 0 := by
    unfold rank work at h
    omega
  unfold consumerWork at hwork
  cases hc : s.consumer with
  | ended failed => exact ⟨failed, rfl⟩
  | _ => simp [hc] at hwork

/-! ## The producer -/

variable {capacity : BitVec 64} {limits : EngineLimits} {source : List FrameRead}
  {events : List ReplayEvent} {popped queued : List ItchEvent}

theorem helper_of_blocked (h : s.Blocked) : s.helper = .consumer := if_pos h

theorem helper_of_not_blocked (h : ¬s.Blocked) : s.helper = .producer := if_neg h

theorem rank_of_blocked (h : s.Blocked) : s.rank = 8 * s.work + s.consumerSteps := by
  unfold rank stepsLeft
  rw [helper_of_blocked h]

theorem rank_of_not_blocked (h : ¬s.Blocked) : s.rank = 8 * s.work + s.producerSteps := by
  unfold rank stepsLeft
  rw [helper_of_not_blocked h]

/-- While the producer is blocked its steps change nothing that counts. -/
theorem advances_blocked {thread : ReplayThread} (h : s.Blocked) (h' : s'.Blocked)
    (hwork : s'.work = s.work) (hsteps : s'.consumerSteps = s.consumerSteps)
    (hthread : thread = .producer) : Advances rank helper thread s s' := by
  refine advances_of_eq ?_ ?_ ?_
  · rw [rank_of_blocked h, rank_of_blocked h', hwork, hsteps]
  · rw [helper_of_blocked h, helper_of_blocked h']
  · rw [helper_of_blocked h, hthread]
    decide

/-- A step of the producer that leaves the ring and the consumer as they are, and less to do. -/
theorem advances_producerWork (hqueue : s'.queue = s.queue) (hconsumer : s'.consumer = s.consumer)
    (hwork : s'.producerWork < s.producerWork) : Advances rank helper .producer s s' := by
  refine advances_work ?_
  have hsame : s'.consumerWork = s.consumerWork := by
    unfold consumerWork
    rw [hconsumer]
  unfold work
  rw [hqueue, hsame]
  omega

theorem ProducerMoves.advances {moved : ItchEvent → ItchEvent} {emitted : List ReplayEvent}
    (h : ProducerMoves moved s emitted s')
    (hs : Between capacity limits source events popped queued s) :
    Advances rank helper .producer s s' := by
  have hring := hs.ring
  cases h with
  | ends hp hr => exact advances_producerWork rfl rfl (by simp [producerWork, hp, hr])
  | fails hp hr _ => exact advances_producerWork rfl rfl (by simp [producerWork, hp, hr])
  | starts hp hr _ => exact advances_producerWork rfl rfl (by simp [producerWork, hp, hr]; omega)
  | storesFailed hp => exact advances_producerWork rfl rfl (by simp [producerWork, hp])
  | storesDone hp => exact advances_producerWork rfl rfl (by simp [producerWork, hp])
  | rests hp =>
    have hblocked : s.Blocked := by
      unfold Blocked
      rw [hp]
      trivial
    exact advances_blocked hblocked hblocked rfl rfl rfl
  | @goesOn call call' queue' hp run =>
    obtain ⟨hless, hwaiting, hcapacity⟩ := Emplacing.step_goesOn run
    have hwork : work { s with queue := queue', producer := .pushing call' } = s.work := by
      simp only [work, producerWork, hp, hwaiting, consumerWork]
    by_cases hb : s.Blocked
    · refine advances_blocked hb ?_ hwork ?_ rfl
      · unfold Blocked at hb ⊢
        rw [hp] at hb
        show queue'.waiting = queue'.capacity.toNat
        rw [hwaiting, hcapacity]
        exact hb
      · simp only [consumerSteps, hwaiting]
    · have hb' : ¬Blocked { s with queue := queue', producer := .pushing call' } := by
        unfold Blocked at hb ⊢
        rw [hp] at hb
        show ¬queue'.waiting = queue'.capacity.toNat
        rw [hwaiting, hcapacity]
        exact hb
      refine advances_of_lt ?_
      rw [rank_of_not_blocked hb, rank_of_not_blocked hb', hwork]
      simp only [producerSteps, hp]
      omega
  | @pushed call left queue' hp run =>
    rw [hp] at hring
    have hwaiting := hring.waiting_pushed run
    refine advances_work ?_
    simp only [work, producerWork, hp, hwaiting, consumerWork]
    omega
  | @full call left queue' hp run =>
    rw [hp] at hring
    obtain ⟨hwaiting, rfl⟩ := hring.waiting_full run
    have hblocked : s.Blocked := by
      unfold Blocked
      rw [hp]
      exact hwaiting
    refine advances_blocked hblocked hwaiting ?_ rfl rfl
    simp only [work, producerWork, hp, consumerWork]

/-! ## The consumer -/

/-- A finished producer has said so. -/
def Settled (s : Pipeline) : Prop := s.producer = .finished → s.producerDone = true

/-- A step of the consumer that leaves as much work as before brings it closer to less, if the producer
is blocked. -/
theorem advances_polling (hproducer : s'.producer = s.producer) (hreads : s'.reads = s.reads)
    (hwaiting : s'.queue.waiting = s.queue.waiting) (hcapacity : s'.queue.capacity = s.queue.capacity)
    (hwork : s'.consumerWork = s.consumerWork)
    (hsteps : s.Blocked → s'.consumerSteps < s.consumerSteps) :
    Advances rank helper .consumer s s' := by
  have hblocked : s'.Blocked ↔ s.Blocked := by
    unfold Blocked
    rw [hproducer, hwaiting, hcapacity]
  have hsame : s'.work = s.work := by
    unfold work producerWork
    rw [hproducer, hreads, hwaiting, hwork]
  by_cases hb : s.Blocked
  · refine advances_of_lt ?_
    have hless := hsteps hb
    rw [rank_of_blocked hb, rank_of_blocked (hblocked.mpr hb), hsame]
    omega
  · have hb' := mt hblocked.mp hb
    have hown : s'.producerSteps = s.producerSteps := by
      unfold producerSteps
      rw [hproducer]
    refine advances_of_eq ?_ ?_ ?_
    · rw [rank_of_not_blocked hb, rank_of_not_blocked hb', hsame, hown]
    · rw [helper_of_not_blocked hb, helper_of_not_blocked hb']
    · rw [helper_of_not_blocked hb]
      decide

/-- A blocked producer that has not finished has filled the ring. -/
theorem Between.waiting_pos (hs : Between capacity limits source events popped queued s)
    (hsettled : s.Settled) (hblocked : s.Blocked) (hdone : s.producerDone = false) :
    s.queue.waiting ≠ 0 := by
  unfold Blocked at hblocked
  unfold Settled at hsettled
  cases hp : s.producer with
  | pushing call =>
    simp only [hp] at hblocked
    rw [hblocked]
    exact (Nat.pos_of_isPowerOfTwo hs.ring.powerOfTwo).ne'
  | finished =>
    rw [hsettled hp] at hdone
    cases hdone
  | _ => simp [hp] at hblocked

theorem ConsumerMoves.advances {place : Placement} {emitted : List ReplayEvent}
    (h : ConsumerMoves place s emitted s')
    (hs : Between capacity limits source events popped queued s) (hsettled : s.Settled) :
    Advances rank helper .consumer s s' := by
  have hring := hs.ring
  have hknows := hs.consumer
  unfold ConsumerKnows at hknows
  cases h with
  | pops hc hdone =>
    refine advances_polling rfl rfl rfl rfl (by simp only [consumerWork, hc]) fun hblocked => ?_
    have hpos := hs.waiting_pos hsettled hblocked hdone
    simp only [consumerSteps, hc, if_neg hpos]
    show 3 < 6
    norm_num
  | tests hc _ =>
    refine advances_polling rfl rfl rfl rfl (by simp only [consumerWork, hc]) fun _ => ?_
    simp only [consumerSteps, hc]
    split_ifs <;> decide
  | loads hc =>
    refine advances_polling rfl rfl rfl rfl (by simp only [consumerWork, hc]) fun _ => ?_
    simp only [consumerSteps, hc]
    split_ifs <;> decide
  | leaves hc _ =>
    refine advances_work ?_
    simp only [work, producerWork, consumerWork, hc]
    omega
  | @stays read hc hne =>
    simp only [hc] at hknows
    have hread : read = s.queue.readIndex :=
      (hknows.2.2 read rfl).trans hring.readIndex.symm
    have hpos : s.queue.waiting ≠ 0 := fun hzero =>
      hne (hread.trans (hring.waiting_zero_iff.mp hzero))
    refine advances_polling rfl rfl rfl rfl (by simp only [consumerWork, hc]) fun _ => ?_
    simp only [consumerSteps, hc, if_neg hpos]
    show 3 < 4
    norm_num
  | goesOn hc run =>
    obtain ⟨hless, hwaiting, hcapacity⟩ := Popping.step_goesOn run
    refine advances_polling rfl rfl hwaiting hcapacity (by simp only [consumerWork, hc]) fun _ => ?_
    simp only [consumerSteps, hc, hwaiting]
    split_ifs <;> omega
  | popped hc run =>
    rw [hc] at hring
    have hwaiting := hring.waiting_popped run
    refine advances_work ?_
    simp only [work, producerWork, consumerWork, hc]
    omega
  | empty hc run =>
    rw [hc] at hring
    obtain ⟨hzero, hsteps, rfl⟩ := hring.waiting_empty run
    refine advances_polling rfl rfl rfl rfl (by simp only [consumerWork, hc]) fun _ => ?_
    simp only [consumerSteps, hc, if_pos hzero, hsteps]
    decide
  | applies hc _ =>
    refine advances_work ?_
    simp only [work, producerWork, consumerWork, hc]
    omega
  | joins hc _ =>
    refine advances_work ?_
    simp only [work, producerWork, consumerWork, hc]
    omega
  | waits hc hp =>
    simp only [hc] at hknows
    exact absurd (hs.done hknows.2.1) hp
  | rests hc =>
    simp only [hc] at hknows
    have hfinished := hs.done hknows.2.1
    have hblocked : s.Blocked := by
      unfold Blocked
      rw [hfinished]
      trivial
    refine advances_of_zero rfl ?_
    rw [rank_of_blocked hblocked]
    simp only [work, producerWork, consumerWork, consumerSteps, hc, hfinished, hring.waiting_eq,
      hknows.2.2.1]
    rfl

theorem ProducerMoves.settled {moved : ItchEvent → ItchEvent} {emitted : List ReplayEvent}
    (h : ProducerMoves moved s emitted s') (hsettled : s.Settled) : s'.Settled := by
  cases h with
  | rests _ => exact hsettled
  | storesDone _ => exact fun _ => rfl
  | _ => nofun

theorem ConsumerMoves.settled {place : Placement} {emitted : List ReplayEvent}
    (h : ConsumerMoves place s emitted s') (hsettled : s.Settled) : s'.Settled := by
  cases h <;> exact hsettled

/-! ## Runs -/

/-- What is known in every state of a run. -/
def Running (capacity : BitVec 64) (limits : EngineLimits) (source : List FrameRead)
    (events : List ReplayEvent) (s : Pipeline) : Prop :=
  Invariant capacity limits source events s ∧ s.Settled

/-- **One step of either thread** brings the end of the replay closer, or leaves it to the other. -/
theorem step_progresses {moved : ItchEvent → ItchEvent} : Progresses (step moved)
    (Running capacity limits source) rank helper ReplayAction.thread := by
  rintro before s action ⟨hinv, hsettled⟩
  have hpreserves : Preserves (step moved) (Invariant capacity limits source) := step_preserves
  obtain ⟨events, s', run, hnext⟩ := hpreserves action hinv
  obtain ⟨popped, queued, hs⟩ := hinv
  refine ⟨events, s', run, ?_⟩
  cases action with
  | producer =>
    have hmoves := producerStep_moves run
    exact ⟨⟨hnext, hmoves.settled hsettled⟩, hmoves.advances hs⟩
  | consumer place =>
    have hmoves := consumerStep_moves run
    exact ⟨⟨hnext, hmoves.settled hsettled⟩, hmoves.advances hs hsettled⟩

theorem Invariant.ended (h : Invariant capacity limits source events s) {failed : Bool}
    (hended : s.consumer = .ended failed) :
    failed = endsInError source ∧ Shutdown limits source events s := by
  have hshutdown := h.shutdown (Or.inr ⟨failed, hended⟩)
  obtain ⟨popped, queued, hs⟩ := h
  have hknows := hs.consumer
  unfold ConsumerKnows at hknows
  simp only [hended] at hknows
  exact ⟨hknows.2.2.2.trans hshutdown.failed, hshutdown⟩

theorem start_running {memory : SlotMemory} {queue : SpscRing ItchEvent}
    (h : SpscRing.new memory capacity = .ok queue) (limits : EngineLimits) (source : List FrameRead)
    (unused : ItchEvent) :
    Running capacity limits source [] (start queue limits source unused) :=
  ⟨start_invariant h limits source unused, nofun⟩

/-- The turns that a file takes. -/
theorem rank_start {memory : SlotMemory} {queue : SpscRing ItchEvent}
    (h : SpscRing.new memory capacity = .ok queue) (limits : EngineLimits) (source : List FrameRead)
    (unused : ItchEvent) :
    rank (start queue limits source unused) = 32 * source.length + 40 := by
  obtain ⟨_, rfl⟩ := SpscRing.new_eq_ok h
  have hfree : ¬Blocked (start ⟨capacity, fun _ => none, 0, 0⟩ limits source unused) := not_false
  have hempty : SpscRing.waiting (⟨capacity, fun _ => none, 0, 0⟩ : SpscRing ItchEvent) = 0 := by
    unfold SpscRing.waiting
    rw [BitVec.sub_self]
    rfl
  rw [rank_of_not_blocked hfree]
  simp only [work, producerWork, consumerWork, producerSteps, start, hempty]
  omega

/-- The replay of the file is over: the consumer has left its loop and joined the producer. -/
def Ends (moved : ItchEvent → ItchEvent) (memory : SlotMemory) (capacity : BitVec 64)
    (limits : EngineLimits) (source : List FrameRead) (unused : ItchEvent)
    (actions : List ReplayAction) : Prop :=
  ∃ queue events s, SpscRing.new memory capacity = .ok queue ∧
    (trace (step moved) actions).run (start queue limits source unused) = .ok events s ∧
    s.consumer = .ended (endsInError source) ∧ Shutdown limits source events s

theorem ends_of_rank {moved : ItchEvent → ItchEvent} {memory : SlotMemory} {queue : SpscRing ItchEvent}
    (hqueue : SpscRing.new memory capacity = .ok queue) {unused : ItchEvent}
    {actions : List ReplayAction}
    (run : (trace (step moved) actions).run (start queue limits source unused) = .ok events s)
    (h : Running capacity limits source events s) (hrank : s.rank = 0) :
    Ends moved memory capacity limits source unused actions := by
  obtain ⟨failed, hended⟩ := rank_eq_zero hrank
  obtain ⟨rfl, hshutdown⟩ := h.1.ended hended
  exact ⟨queue, events, s, hqueue, run, hended, hshutdown⟩

/-- **A replay takes a bounded number of turns**, once the ring is constructed. After 32 rounds for each
frame and 40 more it is over, however the threads take turns in a round. -/
theorem replay_ends_after_rounds {capacity : BitVec 64} {memory : SlotMemory}
    (hcapacity : capacity.toNat.isPowerOfTwo) (hmemory : memory.Grants capacity)
    (moved : ItchEvent → ItchEvent) (limits : EngineLimits) (source : List FrameRead)
    (unused : ItchEvent) (rounds : List (List ReplayAction))
    (hrounds : ∀ round ∈ rounds, IsRound ReplayAction.thread round)
    (henough : 32 * source.length + 40 ≤ rounds.length) (more : List ReplayAction) :
    Ends moved memory capacity limits source unused (rounds.flatten ++ more) := by
  obtain ⟨queue, hqueue⟩ := SpscRing.new_ok (T := ItchEvent) hcapacity hmemory
  obtain ⟨events, s, run, hrunning, hrank⟩ := step_progresses.rounds rounds hrounds more
    (start_running hqueue limits source unused)
  rw [rank_start hqueue] at hrank
  exact ends_of_rank hqueue run hrunning (by omega)

/-- An order and its cancellation through a ring of one slot; in the later rounds the consumer goes
first. -/
theorem replay_ends_after_rounds_two :
    let rounds : List (List ReplayAction) := List.replicate 20 [.producer, .consumer .bump] ++
      List.replicate 84 [.consumer .bump, .producer, .producer]
    Ends id ⟨64, 1024, true⟩ 1 {} [.frame addFrame, .frame cancelFrame] (.skippedMessage ⟨0, none⟩)
      (rounds.flatten ++ []) := by
  refine replay_ends_after_rounds ⟨0, rfl⟩ (by decide) id {} _ _ _ (fun round hround thread => ?_) ?_ []
  · rcases List.mem_append.mp hround with hround | hround
    all_goals
      rw [List.eq_of_mem_replicate hround]
      cases thread with
      | producer => exact ⟨.producer, by simp, rfl⟩
      | consumer => exact ⟨.consumer .bump, by simp, rfl⟩
  · rw [List.length_append, List.length_replicate, List.length_replicate]
    exact le_rfl

end Pipeline

end Lob
