import Lob.App.Arguments
import Lob.App.Session

/-!
# From the command line to the outcome

The whole program: its arguments, the file that they name, and the replay of the file by two threads.
-/

namespace Lob

open Basis

/-! ## The input file -/

def hasGzipSuffix (path : String) : Bool :=
  3 ≤ path.length && path.toList.drop (path.length - 3) = ".gz".toList

/-- The files that can be opened; those opened as gzip are decompressed. -/
structure Files where
  plain : String → Option InputFile
  gzip : String → Option InputFile

/-- The constructor of `ItchFrameReader` and `is_open`, in a build with or without zlib. -/
def openInput (haveZlib : Bool) (files : Files) (path : String) : Except String InputFile :=
  if hasGzipSuffix path then
    if haveZlib then
      match files.gzip path with
      | none => .error "cannot open gzip input file"
      | some file => .ok file
    else .error "gzip support was not enabled; decompress the ITCH sample before replaying it"
  else
    match files.plain path with
    | none => .error "cannot open input file"
    | some file => .ok file

/-! ## A file that is read to its end, or not -/

/-- What reading the file gives. -/
def InputFile.Gives (file : InputFile) (source : List FrameRead) : Prop :=
  ∃ r, (FrameReader.readAll (file.content.length + 1)).run (.start file) = .ok source r ∧
    FrameReader.Gives (.start file) r source

theorem InputFile.exists_gives (file : InputFile) : ∃ source, file.Gives source := by
  obtain ⟨source, r, run, hgives⟩ :=
    FrameReader.readAll_ok (file.content.length + 1) (.start file) (Nat.lt_succ_self _)
  exact ⟨source, r, run, hgives⟩

/-- What the program prints and returns where a read fails behind these frames. A frame that does not
decode comes first. -/
def ReplayConfig.failure (config : ReplayConfig) (reads : List FrameRead) (reason : String) : Output :=
  let error := if endsInError reads then errorText reads else reason
  ⟨[], config.checkpoints (decodedEvents reads) ++ [decodeErrorLine error], 1⟩

theorem ReplayConfig.output_failed (config : ReplayConfig) (readings : List Readings)
    (reads : List FrameRead) (reason : String) (throughput : BitVec 64) :
    config.output readings (reads ++ [.error reason]) throughput = config.failure reads reason := by
  obtain ⟨hevents, hends, htext⟩ := FrameReader.reads_failed reads reason
  unfold output failure
  rw [if_pos hends, hevents, htext]

/-- **A file that cannot be read to its end.** Whichever reads fail and however the threads take
turns, as long as each gets its turns, the program returns once the ring is constructed. Either no
read up to the end of the frames fails, and the program does what it does on the frames of the file;
or it fails with the message of the first read that does, after what it does on the frames that are
read whole by then. -/
theorem Main.replay_failing_file (config : ReplayConfig) {memory : SlotMemory}
    (hring : config.ringCapacity.toNat.isPowerOfTwo) (hmemory : memory.Grants config.ringCapacity)
    (moved : ItchEvent → ItchEvent) (file : InputFile) (unused : ItchEvent) {turns : ℕ → MainAction}
    (hfair : Fair (fun action => action.onPipeline.thread) turns) :
    ∃ queue source r n, SpscRing.new memory config.ringCapacity = .ok queue ∧
      (FrameReader.readAll (file.content.length + 1)).run (.start file) = .ok source r ∧
      ∀ m, n ≤ m → ∃ readings s throughput,
        (trace (step config moved) (firstActions turns m)).run (start config queue source unused) =
          .ok readings s ∧
        readings.length = (decodedEvents source).length ∧
        (FrameReader.Clear file.fails 0 r.reads ∧ s.output =
            some (config.output readings (FrameReader.framesOf file.content) throughput) ∨
          ∃ count reason, FrameReader.Fails (.start file) r count reason ∧ s.output =
            some (config.failure (FrameReader.wholeFrames (file.content.take count)) reason)) := by
  obtain ⟨queue, hqueue⟩ := SpscRing.new_ok (T := ItchEvent) hring hmemory
  obtain ⟨source, r, hread, hgives⟩ := file.exists_gives
  obtain ⟨n, hn⟩ := replay_returns hqueue moved source unused hfair
  refine ⟨queue, source, r, n, hqueue, hread, fun m hm => ?_⟩
  obtain ⟨readings, s, throughput, run, hlength, houtput⟩ := hn m hm
  refine ⟨readings, s, throughput, run, hlength, ?_⟩
  rcases hgives with ⟨hclear, rfl⟩ | ⟨count, reason, hf, rfl⟩
  · exact Or.inl ⟨hclear, houtput⟩
  · rw [config.output_failed] at houtput
    exact Or.inr ⟨count, reason, hf, houtput⟩

/-- The second of two frames cannot be read: the program returns with the checkpoint of the first event
and the message of the read. -/
theorem Main.replay_failing_file_two :
    let config : ReplayConfig := { ringCapacity := 1, checkpointEvery := 1 }
    let file : InputFile := ⟨addFrame ++ cancelFrame, fun _ => 65535,
      fun n => if n = 3 then some "input read failed" else none⟩
    let turns : ℕ → MainAction := fun n => if n % 2 = 0 then .producer else .consumer .bump ⟨0, 0, 0⟩
    ∃ queue source r n, SpscRing.new ⟨64, 1024, true⟩ config.ringCapacity = .ok queue ∧
      (FrameReader.readAll (file.content.length + 1)).run (.start file) = .ok source r ∧
      source = [.frame addFrame, .error "input read failed"] ∧
      ∀ m, n ≤ m → ∃ readings s,
        (trace (step config id) (firstActions turns m)).run
          (start config queue source (.skippedMessage ⟨0, none⟩)) = .ok readings s ∧
        s.output = some ⟨[], ["event=checkpoint applied=1 instruments=1 resting_orders=1 rejected=0",
          "decode error: input read failed"], 1⟩ := by
  intro config file turns
  obtain ⟨queue, source, r, n, hqueue, hread, hn⟩ := @replay_failing_file config
    ⟨64, 1024, true⟩ ⟨0, rfl⟩ (by decide) id file (.skippedMessage ⟨0, none⟩)
    _ (fair_alternating .bump ⟨0, 0, 0⟩)
  have hparts : (source, r.reads, r.rest.length, r.error) =
      ([.frame addFrame, .error "input read failed"], 4, 23, "input read failed") :=
    of_evaluate hread (fun source r => (source, r.reads, r.rest.length, r.error)) (by decide +kernel)
  simp only [Prod.mk.injEq] at hparts
  obtain ⟨hsource, hreads, hrest, herror⟩ := hparts
  refine ⟨queue, source, r, n, hqueue, hread, hsource, fun m hm => ?_⟩
  obtain ⟨readings, s, _, run, _, houtput⟩ := hn m hm
  refine ⟨readings, s, run, ?_⟩
  rcases houtput with ⟨hclear, _⟩ | ⟨count, reason, hfails, houtput⟩
  · have hthree := hclear.2 3 (Nat.zero_le 3) (by rw [hreads]; decide)
    cases hthree
  · have hcount : count = 40 := by
      have hlength := congrArg List.length hfails.rest
      have hle := hfails.count_le
      rw [hrest, List.length_drop] at hlength
      change 23 = 63 - count at hlength
      omega
    have hwhole : FrameReader.wholeFrames (file.content.take 40) = [.frame addFrame] := by
      have hframe := FrameReader.wholeFrames_frame
        (show 2 + Itch.frameLength file.content ≤ file.content.length by decide) 2
      have hrest : FrameReader.wholeFrames ((file.content.drop 38).take 2) = [] :=
        FrameReader.wholeFrames_ended (Or.inr ⟨by decide, Or.inr (by decide)⟩)
      rw [show Itch.frameLength file.content = 36 by decide, hrest] at hframe
      exact hframe
    rw [houtput, hcount, hwhole, ← hfails.error, herror]
    exact congrArg (fun err => some (Output.mk [] err 1)) (by decide +kernel)

/-! ## The program -/

def usageLine : String :=
  "usage: itch_replay <sample.itch[.gz]> [--ring-capacity N] " ++
    "[--max-instruments N] [--max-resting-orders N] " ++
    "[--checkpoint-every N] [--snapshot-locate N] [--fail-on-reject]"

def inputErrorLine (error : String) : String := "input error: " ++ error

/-- What the program runs in: how it was built, the files, and the memory for the slots of the ring. -/
structure Environment where
  haveZlib : Bool
  files : Files
  memory : SlotMemory

/-- How `main` ends: it has printed and returns, or an exception of the ring's constructor leaves it. -/
inductive Ending where
  | returns (output : Output)
  | throws (error : RingError)

/-- `main`, with its threads taking these turns; `none` where it has not ended by then. -/
def program (environment : Environment) (argv : List String) (moved : ItchEvent → ItchEvent)
    (unused : ItchEvent) (actions : List MainAction) : Option Ending :=
  match parseArguments argv with
  | none => some (.returns ⟨[], [usageLine], 2⟩)
  | some config =>
    match openInput environment.haveZlib environment.files config.inputPath with
    | .error error => some (.returns ⟨[], [inputErrorLine error], 1⟩)
    | .ok file =>
      match SpscRing.new environment.memory config.ringCapacity with
      | .error error => some (.throws error)
      | .ok queue =>
        match (FrameReader.readAll (file.content.length + 1)).run (.start file) with
        | .error _ _ => none
        | .ok source _ =>
          match (trace (Main.step config moved) actions).run
            (Main.start config queue source unused) with
          | .error _ _ => none
          | .ok _ s => s.output.map .returns

/-- How the program without threads ends. -/
def outcome (environment : Environment) (argv : List String) (source : List FrameRead)
    (readings : List Readings) (throughput : BitVec 64) : Ending :=
  match parseArguments argv with
  | none => .returns ⟨[], [usageLine], 2⟩
  | some config =>
    match openInput environment.haveZlib environment.files config.inputPath with
    | .error error => .returns ⟨[], [inputErrorLine error], 1⟩
    | .ok _ =>
      if environment.memory.Grants config.ringCapacity then
        .returns (config.output readings source throughput)
      else .throws (environment.memory.exception config.ringCapacity)

/-- **From the command line to the outcome.** Whatever the arguments and the file, however its reads
come back short or fail, whether there is memory for the ring or not, and however the threads take
turns, as long as each gets its turns, the program ends, and it ends as the program without threads
does. -/
theorem program_outcome (environment : Environment) (argv : List String)
    (moved : ItchEvent → ItchEvent) (unused : ItchEvent) {turns : ℕ → MainAction}
    (hfair : Fair (fun action => action.onPipeline.thread) turns) :
    ∃ source, (∀ config file, parseArguments argv = some config →
        openInput environment.haveZlib environment.files config.inputPath = .ok file →
          file.Gives source) ∧
      ∃ n, ∀ m, n ≤ m → ∃ readings throughput, readings.length = (decodedEvents source).length ∧
        program environment argv moved unused (firstActions turns m) =
          some (outcome environment argv source readings throughput) := by
  unfold program outcome
  cases hargv : parseArguments argv with
  | none => exact ⟨[], nofun, 0, fun _ _ => ⟨[], 0, rfl, rfl⟩⟩
  | some config =>
    dsimp only
    cases hopen : openInput environment.haveZlib environment.files config.inputPath with
    | error error =>
      refine ⟨[], fun config' file hconfig hfile => ?_, 0, fun _ _ => ⟨[], 0, rfl, rfl⟩⟩
      cases hconfig
      rw [hopen] at hfile
      cases hfile
    | ok file =>
      have hexpressible := expressible_of_parseArguments hargv
      have hnew := SpscRing.new_eq (T := ItchEvent) hexpressible.ringCapacity environment.memory
      obtain ⟨source, r, hread, hgives⟩ := file.exists_gives
      refine ⟨source, fun config' file' hconfig hfile => ?_, ?_⟩
      · cases hconfig
        rw [hopen] at hfile
        cases hfile
        exact ⟨r, hread, hgives⟩
      by_cases hmemory : environment.memory.Grants config.ringCapacity
      · rw [if_pos hmemory] at hnew
        obtain ⟨n, hn⟩ := Main.replay_returns hnew moved source unused hfair
        refine ⟨n, fun m hm => ?_⟩
        obtain ⟨readings, s, throughput, run, hlength, houtput⟩ := hn m hm
        refine ⟨readings, throughput, hlength, ?_⟩
        simp only [hnew, hread, run, houtput, if_pos hmemory]
        rfl
      · rw [if_neg hmemory] at hnew
        refine ⟨0, fun _ _ => ⟨List.replicate (decodedEvents source).length ⟨0, 0, 0⟩, 0,
          List.length_replicate, ?_⟩⟩
        simp only [hnew, if_neg hmemory]

/-- A file of two events, of which no read gives more than five bytes, through a ring of one slot. -/
theorem program_outcome_two :
    let file : InputFile := ⟨addFrame ++ cancelFrame, fun _ => 4, fun _ => none⟩
    let environment : Environment := ⟨false, ⟨fun _ => some file, fun _ => none⟩, ⟨64, 1024, true⟩⟩
    let argv := ["itch_replay", "day.itch", "--ring-capacity", "1", "--checkpoint-every", "1"]
    let config : ReplayConfig := { inputPath := "day.itch", ringCapacity := 1, checkpointEvery := 1 }
    let source : List FrameRead := [.frame addFrame, .frame cancelFrame]
    let turns : ℕ → MainAction := fun n => if n % 2 = 0 then .producer else .consumer .bump ⟨5, 9, 0⟩
    ∃ n, ∀ m, n ≤ m → ∃ readings throughput, readings.length = 2 ∧
      program environment argv id (.skippedMessage ⟨0, none⟩) (firstActions turns m) =
        some (.returns (config.output readings source throughput)) ∧
      (config.output readings source throughput).status = 0 ∧
      (config.output readings source throughput).err =
        ["event=checkpoint applied=1 instruments=1 resting_orders=1 rejected=0",
          "event=checkpoint applied=2 instruments=1 resting_orders=1 rejected=0"] := by
  intro file environment argv config source turns
  obtain ⟨source', hgives, n, hn⟩ := program_outcome environment argv id (.skippedMessage ⟨0, none⟩)
    (Main.fair_alternating .bump ⟨5, 9, 0⟩)
  have hargv : parseArguments argv = some config := by decide +kernel
  have hopen : openInput environment.haveZlib environment.files config.inputPath = .ok file :=
    if_neg (show ¬hasGzipSuffix "day.itch" = true by decide +kernel)
  obtain ⟨r, hread, _⟩ := hgives config file hargv hopen
  have hsource : source' = source := of_evaluate hread (fun source _ => source) (by decide +kernel)
  rw [hsource] at hn
  refine ⟨n, fun m hm => ?_⟩
  obtain ⟨readings, throughput, hlength, hprogram⟩ := hn m hm
  have hends : endsInError source = false := by decide +kernel
  refine ⟨readings, throughput, hlength.trans (by decide +kernel), ?_, ?_, ?_⟩
  · rw [hprogram]
    unfold outcome
    simp only [hargv, hopen]
    rw [if_pos (by decide)]
  · unfold ReplayConfig.output
    rw [hends]
    rfl
  · unfold ReplayConfig.output
    rw [hends]
    show config.checkpoints (decodedEvents source) ++
      (config.snapshotLines (decodedEvents source)).2 = _
    decide +kernel

end Lob
