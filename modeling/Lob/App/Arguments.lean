import Lob.App.Main
import Mathlib.Data.List.TakeWhile

/-!
# The command line

How the program reads its arguments. The options are read from left to right, a later one overrides an
earlier one, and what they can ask for are the configurations with a ring of a power of two, with limits
above zero, and without a snapshot of locate 0.
-/

namespace Lob

/-! ## Numbers -/

/-- What `std::stoull` throws. -/
inductive StdException where
  | invalidArgument
  | outOfRange
  deriving DecidableEq

/-- `std::isspace` in the C locale. -/
def isSpace (c : Char) : Bool := c.toNat = 32 || (9 ≤ c.toNat && c.toNat ≤ 13)

def dropSign : List Char → List Char
  | '-' :: text => text
  | '+' :: text => text
  | text => text

/-- `std::stoull` skips blanks and a sign, and does not look at what follows the digits. A number with
a minus sign is negated in its word. -/
def stoull (input : String) : Except StdException (BitVec 64) :=
  let text := input.toList.dropWhile isSpace
  let digits := (dropSign text).takeWhile Char.isDigit
  let value := Nat.ofDigitChars 10 digits 0
  if digits = [] then .error .invalidArgument
  else if 2 ^ 64 ≤ value then .error .outOfRange
  else if text.head? = some '-' then .ok (-BitVec.ofNat 64 value)
  else .ok (BitVec.ofNat 64 value)

/-- A power of two; zero where there is none to read, whether `stoull` throws or the check after it. -/
def parseCapacity (input : String) : BitVec 64 :=
  match stoull input with
  | .ok value => if value = 0 ∨ value &&& (value - 1) ≠ 0 then 0 else value
  | .error _ => 0

def parsePositiveSize (input : String) : Option (BitVec 64) :=
  match stoull input with
  | .ok value => if value = 0 ∨ value > BitVec.allOnes 64 then none else some value
  | .error _ => none

/-! ## Arguments -/

/-- An option with a value. -/
def parseOption (option value : String) (config : ReplayConfig) : Option ReplayConfig :=
  if option = "--ring-capacity" then
    let capacity := parseCapacity value
    if capacity = 0 then none else some { config with ringCapacity := capacity }
  else if option = "--max-instruments" then
    match parsePositiveSize value with
    | none => none
    | some limit =>
      some { config with engineLimits := { config.engineLimits with maxInstruments := limit } }
  else if option = "--max-resting-orders" then
    match parsePositiveSize value with
    | none => none
    | some limit =>
      some { config with engineLimits := { config.engineLimits with maxRestingOrders := limit } }
  else if option = "--checkpoint-every" then
    match parsePositiveSize value with
    | none => none
    | some interval => some { config with checkpointEvery := interval }
  else if option = "--snapshot-locate" then
    match parsePositiveSize value with
    | none => none
    | some locate =>
      if locate > 65535 then none
      else some { config with snapshotLocate := some (locate.setWidth 16) }
  else none

/-- The loop over the options. -/
def parseOptions : List String → ReplayConfig → Option ReplayConfig
  | [], config => some config
  | option :: arguments, config =>
    if option = "--fail-on-reject" then parseOptions arguments { config with failOnReject := true }
    else
      match arguments with
      | [] => none
      | value :: arguments =>
        match parseOption option value config with
        | none => none
        | some config => parseOptions arguments config

/-- The first argument is the name of the program. -/
def parseArguments : List String → Option ReplayConfig
  | _ :: path :: arguments => parseOptions arguments { inputPath := path }
  | _ => none

/-! ## The options by what they set -/

/-- The options with a value. -/
inductive NumericOption where
  | ringCapacity
  | maxInstruments
  | maxRestingOrders
  | checkpointEvery
  | snapshotLocate
  deriving DecidableEq

namespace NumericOption

def name : NumericOption → String
  | .ringCapacity => "--ring-capacity"
  | .maxInstruments => "--max-instruments"
  | .maxRestingOrders => "--max-resting-orders"
  | .checkpointEvery => "--checkpoint-every"
  | .snapshotLocate => "--snapshot-locate"

/-- The values that an option takes. -/
def Accepts (option : NumericOption) (value : BitVec 64) : Prop :=
  value ≠ 0 ∧ (option = .ringCapacity → value &&& (value - 1) = 0) ∧
    (option = .snapshotLocate → value ≤ 65535)

instance (option : NumericOption) (value : BitVec 64) : Decidable (option.Accepts value) :=
  inferInstanceAs (Decidable (value ≠ 0 ∧ (option = .ringCapacity → value &&& (value - 1) = 0) ∧
    (option = .snapshotLocate → value ≤ 65535)))

def set (config : ReplayConfig) (value : BitVec 64) : NumericOption → ReplayConfig
  | .ringCapacity => { config with ringCapacity := value }
  | .maxInstruments =>
    { config with engineLimits := { config.engineLimits with maxInstruments := value } }
  | .maxRestingOrders =>
    { config with engineLimits := { config.engineLimits with maxRestingOrders := value } }
  | .checkpointEvery => { config with checkpointEvery := value }
  | .snapshotLocate => { config with snapshotLocate := some (value.setWidth 16) }

end NumericOption

/-- What one option asks for. -/
inductive Setting where
  | number (option : NumericOption) (value : BitVec 64)
  | failOnReject

def Setting.apply (config : ReplayConfig) : Setting → ReplayConfig
  | .number option value => option.set config value
  | .failOnReject => { config with failOnReject := true }

/-- The arguments spell the settings. -/
inductive Spells : List Setting → List String → Prop
  | nil : Spells [] []
  | flag {settings : List Setting} {arguments : List String} (h : Spells settings arguments) :
      Spells (.failOnReject :: settings) ("--fail-on-reject" :: arguments)
  | number {settings : List Setting} {arguments : List String} {option : NumericOption}
      {text : String} {value : BitVec 64} (htext : stoull text = .ok value)
      (hvalue : option.Accepts value) (h : Spells settings arguments) :
      Spells (.number option value :: settings) (option.name :: text :: arguments)

/-! ## What is accepted -/

namespace NumericOption

/-- The value that an option takes from a text. -/
def read (option : NumericOption) (text : String) : Option (BitVec 64) :=
  match stoull text with
  | .ok value => if option.Accepts value then some value else none
  | .error _ => none

theorem read_eq_some {option : NumericOption} {text : String} {value : BitVec 64} :
    option.read text = some value ↔ stoull text = .ok value ∧ option.Accepts value := by
  unfold read
  cases stoull text with
  | error exception => exact ⟨nofun, nofun⟩
  | ok value' =>
    simp only [Except.ok.injEq]
    split_ifs with h
    · constructor
      · rintro ⟨rfl⟩
        exact ⟨rfl, h⟩
      · rintro ⟨rfl, _⟩
        rfl
    · refine ⟨nofun, ?_⟩
      rintro ⟨rfl, h'⟩
      exact absurd h' h

end NumericOption

theorem parseCapacity_eq (text : String) :
    parseCapacity text = (NumericOption.ringCapacity.read text).getD 0 := by
  unfold parseCapacity NumericOption.read
  cases stoull text with
  | error exception => rfl
  | ok value =>
    dsimp only
    by_cases hok : NumericOption.ringCapacity.Accepts value
    · rw [if_pos hok, if_neg (not_or.mpr ⟨hok.1, not_not.mpr (hok.2.1 rfl)⟩)]
      rfl
    · rw [if_neg hok, if_pos (or_iff_not_imp_left.mpr fun hzero hmask =>
        hok ⟨hzero, fun _ => hmask, nofun⟩)]
      rfl

theorem parsePositiveSize_eq (text : String) : parsePositiveSize text =
    match stoull text with
    | .ok value => if value = 0 then none else some value
    | .error _ => none := by
  unfold parsePositiveSize
  cases stoull text with
  | error exception => rfl
  | ok value =>
    have hmax : ¬value > BitVec.allOnes 64 := by
      show ¬BitVec.allOnes 64 < value
      rw [BitVec.lt_def, BitVec.toNat_allOnes]
      omega
    simp only [hmax, or_false]

/-- An option that takes any positive number. -/
theorem read_positive (option : NumericOption) (hring : option ≠ .ringCapacity)
    (hlocate : option ≠ .snapshotLocate) (text : String) :
    option.read text = parsePositiveSize text := by
  rw [parsePositiveSize_eq]
  unfold NumericOption.read
  cases stoull text with
  | error exception => rfl
  | ok value =>
    dsimp only
    by_cases hzero : value = 0
    · rw [if_pos hzero, if_neg fun hok : option.Accepts value => hok.1 hzero]
    · have hok : option.Accepts value :=
        ⟨hzero, fun h => absurd h hring, fun h => absurd h hlocate⟩
      rw [if_neg hzero, if_pos hok]

theorem read_snapshotLocate (text : String) : NumericOption.snapshotLocate.read text =
    (parsePositiveSize text).bind fun locate => if locate > 65535 then none else some locate := by
  rw [parsePositiveSize_eq]
  unfold NumericOption.read
  cases stoull text with
  | error exception => rfl
  | ok value =>
    dsimp only
    by_cases hzero : value = 0
    · rw [if_pos hzero, if_neg fun hok : NumericOption.Accepts _ value => hok.1 hzero]
      rfl
    rw [if_neg hzero, Option.bind_some]
    by_cases hmax : value > 65535
    · rw [if_pos hmax, if_neg fun hok : NumericOption.Accepts _ value =>
        BitVec.not_lt.mpr (hok.2.2 rfl) hmax]
    · have hok : NumericOption.snapshotLocate.Accepts value :=
        ⟨hzero, nofun, fun _ => BitVec.not_lt.mp hmax⟩
      rw [if_neg hmax, if_pos hok]

/-- **An option with a value** is set to it, where it takes it. -/
theorem parseOption_name (option : NumericOption) (text : String) (config : ReplayConfig) :
    parseOption option.name text config = (option.read text).map (option.set config) := by
  cases option with
  | ringCapacity =>
    show parseOption "--ring-capacity" text config = _
    unfold parseOption
    rw [if_pos rfl, parseCapacity_eq]
    cases h : NumericOption.ringCapacity.read text with
    | none => rfl
    | some value => exact if_neg (NumericOption.read_eq_some.mp h).2.1
  | maxInstruments =>
    show parseOption "--max-instruments" text config = _
    unfold parseOption
    rw [if_neg (by decide), if_pos rfl, read_positive .maxInstruments nofun nofun]
    cases parsePositiveSize text <;> rfl
  | maxRestingOrders =>
    show parseOption "--max-resting-orders" text config = _
    unfold parseOption
    rw [if_neg (by decide), if_neg (by decide), if_pos rfl,
      read_positive .maxRestingOrders nofun nofun]
    cases parsePositiveSize text <;> rfl
  | checkpointEvery =>
    show parseOption "--checkpoint-every" text config = _
    unfold parseOption
    rw [if_neg (by decide), if_neg (by decide), if_neg (by decide), if_pos rfl,
      read_positive .checkpointEvery nofun nofun]
    cases parsePositiveSize text <;> rfl
  | snapshotLocate =>
    show parseOption "--snapshot-locate" text config = _
    unfold parseOption
    rw [if_neg (by decide), if_neg (by decide), if_neg (by decide), if_neg (by decide), if_pos rfl,
      read_snapshotLocate]
    cases parsePositiveSize text with
    | none => rfl
    | some locate =>
      rw [Option.bind_some]
      dsimp only
      split_ifs <;> rfl

theorem parseOption_unknown {name : String} (h : ∀ option : NumericOption, option.name ≠ name)
    (text : String) (config : ReplayConfig) : parseOption name text config = none := by
  have hring : name ≠ "--ring-capacity" := (h .ringCapacity).symm
  have hinstruments : name ≠ "--max-instruments" := (h .maxInstruments).symm
  have horders : name ≠ "--max-resting-orders" := (h .maxRestingOrders).symm
  have hcheckpoint : name ≠ "--checkpoint-every" := (h .checkpointEvery).symm
  have hsnapshot : name ≠ "--snapshot-locate" := (h .snapshotLocate).symm
  unfold parseOption
  rw [if_neg hring, if_neg hinstruments, if_neg horders, if_neg hcheckpoint, if_neg hsnapshot]

theorem name_ne_failOnReject (option : NumericOption) : option.name ≠ "--fail-on-reject" := by
  cases option <;> decide

/-- What is accepted spells settings, and they are made from left to right. -/
theorem of_parseOptions {arguments : List String} {config config' : ReplayConfig}
    (h : parseOptions arguments config = some config') :
    ∃ settings, Spells settings arguments ∧ config' = settings.foldl Setting.apply config := by
  induction arguments, config using parseOptions.induct with
  | case1 config =>
    cases h
    exact ⟨[], .nil, rfl⟩
  | case2 config arguments ih =>
    unfold parseOptions at h
    rw [if_pos rfl] at h
    obtain ⟨settings, hspells, rfl⟩ := ih h
    exact ⟨_, .flag hspells, rfl⟩
  | case3 option config hflag =>
    unfold parseOptions at h
    rw [if_neg hflag] at h
    cases h
  | case4 option config hflag value arguments hnone =>
    unfold parseOptions at h
    rw [if_neg hflag] at h
    simp only [hnone] at h
    cases h
  | case5 option config hflag value arguments config₁ hsome ih =>
    unfold parseOptions at h
    rw [if_neg hflag] at h
    simp only [hsome] at h
    obtain ⟨settings, hspells, rfl⟩ := ih h
    by_cases hname : ∃ o : NumericOption, o.name = option
    · obtain ⟨o, rfl⟩ := hname
      rw [parseOption_name] at hsome
      obtain ⟨n, hread, rfl⟩ := Option.map_eq_some_iff.mp hsome
      obtain ⟨htext, hvalue⟩ := NumericOption.read_eq_some.mp hread
      exact ⟨_, .number htext hvalue hspells, rfl⟩
    · rw [parseOption_unknown (not_exists.mp hname)] at hsome
      cases hsome

/-- Arguments that spell settings are accepted. -/
theorem Spells.parseOptions {settings : List Setting} {arguments : List String}
    (h : Spells settings arguments) (config : ReplayConfig) :
    parseOptions arguments config = some (settings.foldl Setting.apply config) := by
  induction h generalizing config with
  | nil => rfl
  | flag _ ih =>
    unfold Lob.parseOptions
    rw [if_pos rfl]
    exact ih _
  | @number settings arguments option text value htext hvalue _ ih =>
    unfold Lob.parseOptions
    rw [if_neg (name_ne_failOnReject option)]
    simp only [parseOption_name, NumericOption.read_eq_some.mpr ⟨htext, hvalue⟩, Option.map_some]
    exact ih _

theorem parseArguments_iff {argv : List String} {config : ReplayConfig} :
    parseArguments argv = some config ↔ ∃ program path arguments settings,
      argv = program :: path :: arguments ∧ Spells settings arguments ∧
        config = settings.foldl Setting.apply { inputPath := path } := by
  constructor
  · intro h
    unfold parseArguments at h
    split at h
    · rename_i program path arguments
      obtain ⟨settings, hspells, rfl⟩ := of_parseOptions h
      exact ⟨program, path, arguments, settings, rfl, hspells, rfl⟩
    · cases h
  · rintro ⟨program, path, arguments, settings, rfl, hspells, rfl⟩
    exact hspells.parseOptions _

/-! ## The configurations -/

/-- What arguments can ask for: a ring of a power of two of slots, for which there may still be no
memory, limits above zero, and no snapshot of locate 0. -/
structure ReplayConfig.Expressible (config : ReplayConfig) : Prop where
  ringCapacity : config.ringCapacity.toNat.isPowerOfTwo
  maxInstruments : config.engineLimits.maxInstruments ≠ 0
  maxRestingOrders : config.engineLimits.maxRestingOrders ≠ 0
  snapshotLocate : config.snapshotLocate ≠ some 0

theorem accepts_ringCapacity {value : BitVec 64} :
    NumericOption.ringCapacity.Accepts value ↔ value.toNat.isPowerOfTwo := by
  have htest := SpscRing.not_powerOfTwo_iff value
  constructor
  · rintro ⟨hne, hand, _⟩
    exact not_not.mp fun hnot => (htest.mpr hnot).elim hne fun hbad => hbad (hand rfl)
  · intro hpower
    have hbad := mt htest.mp (not_not.mpr hpower)
    rw [not_or, not_not] at hbad
    exact ⟨hbad.1, fun _ => hbad.2, nofun⟩

theorem default_expressible (path : String) : ({ inputPath := path } : ReplayConfig).Expressible where
  ringCapacity := ⟨16, rfl⟩
  maxInstruments := (by decide : (18446744073709551615 : BitVec 64) ≠ 0)
  maxRestingOrders := (by decide : (18446744073709551615 : BitVec 64) ≠ 0)
  snapshotLocate := nofun

/-- An option keeps a configuration expressible. -/
theorem set_expressible {config : ReplayConfig} (h : config.Expressible) {option : NumericOption}
    {value : BitVec 64} (hvalue : option.Accepts value) : (option.set config value).Expressible := by
  cases option with
  | ringCapacity => exact { h with ringCapacity := accepts_ringCapacity.mp hvalue }
  | maxInstruments => exact { h with maxInstruments := hvalue.1 }
  | maxRestingOrders => exact { h with maxRestingOrders := hvalue.1 }
  | checkpointEvery => exact { h with }
  | snapshotLocate =>
    refine { h with snapshotLocate := fun heq => hvalue.1 ?_ }
    have hlocate : value.setWidth 16 = 0 := Option.some.inj heq
    have hmax := hvalue.2.2 rfl
    bv_omega

theorem Spells.expressible {settings : List Setting} {arguments : List String}
    (h : Spells settings arguments) {config : ReplayConfig} (hconfig : config.Expressible) :
    (settings.foldl Setting.apply config).Expressible := by
  induction h generalizing config with
  | nil => exact hconfig
  | flag _ ih => exact ih { hconfig with }
  | number _ hvalue _ ih => exact ih (set_expressible hconfig hvalue)

theorem expressible_of_parseArguments {argv : List String} {config : ReplayConfig}
    (h : parseArguments argv = some config) : config.Expressible := by
  obtain ⟨program, path, arguments, settings, rfl, hspells, rfl⟩ := parseArguments_iff.mp h
  exact hspells.expressible (default_expressible path)

/-! ## Arguments for a configuration -/

theorem isSpace_of_isDigit {c : Char} (h : c.isDigit = true) : isSpace c = false := by
  rw [Char.isDigit_iff_toNat] at h
  unfold isSpace
  have h48 : '0'.toNat = 48 := rfl
  simp only [Bool.or_eq_false_iff, Bool.and_eq_false_iff, decide_eq_false_iff_not]
  omega

theorem dropSign_of_isDigit {c : Char} {text : List Char} (h : c.isDigit = true) :
    dropSign (c :: text) = c :: text := by
  unfold dropSign
  split
  · rename_i heq
    rw [List.cons_eq_cons] at heq
    rw [heq.1] at h
    cases h
  · rename_i heq
    rw [List.cons_eq_cons] at heq
    rw [heq.1] at h
    cases h
  · rfl

/-- The digits of a word are read back. -/
theorem stoull_toString (value : BitVec 64) : stoull (toString value.toNat) = .ok value := by
  have hlist : (toString value.toNat).toList = Nat.toDigits 10 value.toNat := Nat.toList_repr
  have hdigits : ∀ c ∈ Nat.toDigits 10 value.toNat, c.isDigit = true :=
    fun c => Nat.isDigit_of_mem_toDigits (by decide) (by decide)
  have hvalue := Nat.ofDigitChars_ten_toDigits (n := value.toNat)
  unfold stoull
  rw [hlist]
  cases htext : Nat.toDigits 10 value.toNat with
  | nil => exact absurd htext Nat.toDigits_ne_nil
  | cons c text =>
    rw [htext] at hdigits hvalue
    have hc := hdigits c List.mem_cons_self
    have hdrop : (c :: text).dropWhile isSpace = c :: text :=
      List.dropWhile_cons_of_neg (by rw [isSpace_of_isDigit hc]; exact Bool.false_ne_true)
    have hhead : (c :: text).head? ≠ some '-' := by
      intro heq
      rw [Option.some.inj heq] at hc
      cases hc
    simp only [hdrop, dropSign_of_isDigit hc, List.takeWhile_eq_self_iff.mpr hdigits, hvalue, hhead,
      if_false]
    rw [if_neg (List.cons_ne_nil _ _), if_neg (Nat.not_le.mpr value.isLt), BitVec.ofNat_toNat,
      BitVec.setWidth_eq]

def Setting.arguments : Setting → List String
  | .number option value => [option.name, toString value.toNat]
  | .failOnReject => ["--fail-on-reject"]

def Setting.Accepted : Setting → Prop
  | .number option value => option.Accepts value
  | .failOnReject => True

theorem spells_arguments {settings : List Setting} (h : ∀ setting ∈ settings, setting.Accepted) :
    Spells settings (settings.flatMap Setting.arguments) := by
  induction settings with
  | nil => exact .nil
  | cons setting settings ih =>
    have hrest := ih fun s hs => h s (List.mem_cons_of_mem _ hs)
    cases setting with
    | number option value =>
      exact .number (stoull_toString value) (h _ List.mem_cons_self) hrest
    | failOnReject => exact .flag hrest

/-- The settings that make a configuration. -/
def ReplayConfig.settings (config : ReplayConfig) : List Setting :=
  [.number .ringCapacity config.ringCapacity,
    .number .maxInstruments config.engineLimits.maxInstruments,
    .number .maxRestingOrders config.engineLimits.maxRestingOrders] ++
  (if config.checkpointEvery = 0 then [] else [.number .checkpointEvery config.checkpointEvery]) ++
  (config.snapshotLocate.elim [] fun locate => [.number .snapshotLocate (locate.setWidth 64)]) ++
  if config.failOnReject then [.failOnReject] else []

theorem ReplayConfig.Expressible.accepted {config : ReplayConfig} (h : config.Expressible) :
    ∀ setting ∈ config.settings, setting.Accepted := by
  unfold ReplayConfig.settings
  refine List.forall_mem_append.mpr ⟨List.forall_mem_append.mpr ⟨List.forall_mem_append.mpr
    ⟨?_, ?_⟩, ?_⟩, ?_⟩
  · rintro setting (_ | ⟨_, _ | ⟨_, _ | ⟨_, ⟨⟩⟩⟩⟩)
    · exact accepts_ringCapacity.mpr h.ringCapacity
    · exact ⟨h.maxInstruments, nofun, nofun⟩
    · exact ⟨h.maxRestingOrders, nofun, nofun⟩
  · split_ifs with hzero
    · exact nofun
    · exact List.forall_mem_singleton.mpr ⟨hzero, nofun, nofun⟩
  · cases hlocate : config.snapshotLocate with
    | none => exact nofun
    | some locate =>
      have hne := h.snapshotLocate
      rw [hlocate] at hne
      have hzero : locate ≠ 0 := fun e => hne (congrArg some e)
      exact List.forall_mem_singleton.mpr ⟨by bv_omega, nofun, fun _ => by bv_omega⟩
  · split_ifs
    · exact List.forall_mem_singleton.mpr trivial
    · exact nofun

theorem ReplayConfig.apply_settings (config : ReplayConfig) :
    config.settings.foldl Setting.apply { inputPath := config.inputPath } = config := by
  obtain ⟨inputPath, ringCapacity, limits, checkpointEvery, snapshotLocate, failOnReject⟩ := config
  have hlocate : ∀ locate : StockLocate, (locate.setWidth 64).setWidth 16 = locate := by
    intro locate
    bv_omega
  unfold ReplayConfig.settings
  simp only [List.foldl_append]
  by_cases hcheckpoint : checkpointEvery = 0
  · rw [if_pos hcheckpoint, hcheckpoint]
    cases snapshotLocate <;> cases failOnReject <;>
      simp [Setting.apply, NumericOption.set, hlocate]
  · rw [if_neg hcheckpoint]
    cases snapshotLocate <;> cases failOnReject <;>
      simp [Setting.apply, NumericOption.set, hlocate]

/-- **The command line** is accepted where it spells settings, which are then made from left to right;
and what it can ask for are the configurations with a ring of a power of two, limits above zero and no
snapshot of locate 0. -/
theorem parseArguments_configurations :
    (∀ argv config, parseArguments argv = some config ↔ ∃ program path arguments settings,
      argv = program :: path :: arguments ∧ Spells settings arguments ∧
        config = settings.foldl Setting.apply { inputPath := path }) ∧
    ∀ config : ReplayConfig, config.Expressible ↔ ∃ argv, parseArguments argv = some config := by
  refine ⟨fun argv config => parseArguments_iff, fun config => ⟨fun h => ?_, ?_⟩⟩
  · refine ⟨"" :: config.inputPath :: config.settings.flatMap Setting.arguments, ?_⟩
    rw [parseArguments_iff]
    exact ⟨_, _, _, _, rfl, spells_arguments h.accepted, (config.apply_settings).symm⟩
  · rintro ⟨argv, h⟩
    exact expressible_of_parseArguments h

end Lob
