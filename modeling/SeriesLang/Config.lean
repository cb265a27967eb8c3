import SeriesLang.Decimal.Numeral
import SeriesLang.Limits
import SeriesLang.Text.Blank
import SeriesLang.Word

/-! # Configuration

The settings of an engine: defaults, overridden by variables of the environment. Numbers out of range
are cut to the limits and unreadable ones are ignored.
-/

namespace SeriesLang

/-- The settings of an engine. -/
structure Config where
  maxDepth : Nat := Limits.defaultDepth
  /-- Evaluate independent arguments side by side. -/
  parallel : Bool := true
  /-- The milliseconds that a query may take. -/
  timeoutMillis : Option Nat := none
  cacheEntries : Nat := Limits.defaultCacheEntries
  cacheSeconds : Float := Limits.cacheSeconds
deriving DecidableEq

namespace Config

/-- A switch as the environment writes it: only a word for the other position changes the default. -/
def readSwitch (default : Bool) : Option String → Bool
  | none => default
  | some text =>
    let word := String.ofList ((Text.trimBlanks text.toList).map Char.toLower)
    if default then !(["0", "false", "no", "off"].contains word)
    else ["1", "true", "yes", "on"].contains word

/-- A number as the environment writes it. -/
def readNumber? (text : Option String) : Option Int :=
  text.bind (fun s => (Numeral.int? (Text.trim s)).bind Word.ofInt?)

/-- The default settings under the variables of an environment. -/
def ofEnvironment (setting? : String → Option String) : Config :=
  let base : Config := {}
  let maxDepth := match readNumber? (setting? "TSFORMULA_MAX_DEPTH") with
    | some n => Limits.clampDepth n
    | none => base.maxDepth
  let timeout := match readNumber? (setting? "TSFORMULA_TIMEOUT_MS") with
    | some n => if 0 < n then some (Limits.clamp n 1 Limits.timeoutMillis).toNat else none
    | none => base.timeoutMillis
  let cacheEntries := match readNumber? (setting? "TSFORMULA_CACHE_ENTRIES") with
    | some n => Limits.clampCacheEntries n
    | none => base.cacheEntries
  { base with
    maxDepth
    parallel := readSwitch base.parallel (setting? "TSFORMULA_PARALLEL")
    timeoutMillis := timeout
    cacheEntries }

/-- The settings with another evaluation depth. -/
def withMaxDepth (config : Config) (depth : Nat) : Config :=
  { config with maxDepth := Limits.clampDepth depth }

/-- The settings with arguments evaluated side by side or not. -/
def withParallel (config : Config) (parallel : Bool) : Config :=
  { config with parallel }

/-- The settings with another timeout, or none. -/
def withTimeout (config : Config) (millis : Option Nat) : Config :=
  { config with timeoutMillis := millis }

/-- The settings with another number of cache entries. -/
def withCacheEntries (config : Config) (entries : Nat) : Config :=
  { config with cacheEntries := Limits.clampCacheEntries entries }

end Config

end SeriesLang
