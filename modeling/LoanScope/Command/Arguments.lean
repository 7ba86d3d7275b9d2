/-! Command-line arguments. They are taken from left to right, and the first that settles the matter
does: a bad one, or a wish for help or for the version. -/

namespace LoanScope

namespace Command

/-- What is printed for each checked function. -/
inductive Style where
  | summary | dump | json
deriving DecidableEq, Repr

/-- What a check was asked for. -/
structure Options where
  paths : List String
  config : Option String
  dump : Bool
  json : Bool

def Options.empty : Options := ⟨[], none, false, false⟩

/-- Which help was asked for. -/
inductive Topic where
  | program | check | help
deriving DecidableEq, Repr

inductive Invocation where
  | check (paths : List String) (config : Option String) (style : Style)
  | help (topic : Topic)
  | version
  | badUsage
deriving DecidableEq, Repr

/-- What a bundle of one-letter flags settles, if anything. Letters for verbosity settle nothing;
`version` tells whether the version may be asked for here. -/
def flags (topic : Topic) (version : Bool) : List Char → Option Invocation
  | [] => none
  | 'v' :: rest => flags topic version rest
  | 'h' :: _ => some (.help topic)
  | 'V' :: _ => some (if version then .version else .badUsage)
  | _ :: _ => some .badUsage

/-- Whether an argument is a bundle of one-letter flags; a lone dash is a name. -/
def isBundle (arg : String) : Bool :=
  match arg.toList with
  | '-' :: c :: _ => c ≠ '-'
  | _ => false

def isLong (arg : String) : Bool := arg.startsWith "--"

/-- Files must have names, and at least one has to be named. Output is in one style only. -/
def Options.finish (o : Options) : Invocation :=
  if o.paths.isEmpty ∨ "" ∈ o.paths ∨ (o.dump ∧ o.json) then .badUsage
  else .check o.paths o.config (if o.json then .json else if o.dump then .dump else .summary)

/-- Names the configuration file. -/
def Options.setConfig? (o : Options) (path : String) : Option Options :=
  if path = "" ∨ o.config.isSome then none else some { o with config := some path }

/-- The value of `--name=value`, for the given `--name=`. -/
def valueAfter? (lead : String) (arg : String) : Option String :=
  if arg.startsWith lead then some (arg.drop lead.length).toString else none

/-- The arguments of a check. -/
def parseCheck (o : Options) : List String → Invocation
  | [] => o.finish
  | "--" :: rest => Options.finish { o with paths := o.paths ++ rest }
  | "--help" :: _ => .help .check
  | "--verbose" :: rest => parseCheck o rest
  | "--dump" :: rest => if o.dump then .badUsage else parseCheck { o with dump := true } rest
  | "--json" :: rest => if o.json then .badUsage else parseCheck { o with json := true } rest
  | "--config" :: path :: rest =>
      if isLong path || isBundle path then .badUsage
      else
        match o.setConfig? path with
        | some o => parseCheck o rest
        | none => .badUsage
  | arg :: rest =>
      match valueAfter? "--config=" arg with
      | some path =>
          match o.setConfig? path with
          | some o => parseCheck o rest
          | none => .badUsage
      | none =>
          if isLong arg ∨ arg = "" then .badUsage
          else if isBundle arg then
            match flags .check false (arg.toList.drop 1) with
            | some settled => settled
            | none => parseCheck o rest
          else parseCheck { o with paths := o.paths ++ [arg] } rest

def parseHelp : List String → Invocation
  | [] => .help .program
  | ["check"] => .help .check
  | ["help"] => .help .help
  | _ => .badUsage

/-- All arguments. -/
def parse : List String → Invocation
  | [] => .badUsage
  | "check" :: rest => parseCheck .empty rest
  | "help" :: rest => parseHelp rest
  | "--help" :: _ => .help .program
  | "--version" :: _ => .version
  | "--verbose" :: rest => parse rest
  | arg :: rest =>
      if isBundle arg then
        match flags .program true (arg.toList.drop 1) with
        | some settled => settled
        | none => parse rest
      else .badUsage

/-- The files that an invocation reads. -/
def Invocation.files : Invocation → List String
  | check paths config _ => config.toList ++ paths
  | _ => []

end Command

end LoanScope
