import Mathlib.Data.List.Sort
import Mathlib.Data.String.Basic
import Nfd.Core.Network
import Nfd.Mgmt.FaceManager

/-!
# nfdc command lines

`CommandDefinition::parse` reads the tokens of a command line in one loop.  A token that names an
argument other than an ANY argument is a named argument: it takes the next token as its value,
or none for a NONE argument, and closes positional parsing.  Any other token goes to the
positional arguments not yet filled, in declaration order: an ANY argument swallows it and every
token after it, an optional argument that cannot parse it is skipped, a required one throws.
Once the tokens are read, every required argument must have a value.

`parseValue` reads an UNSIGNED value with `boost::lexical_cast<int64_t>`, since the cast to
`uint64_t` accepts negative numbers, so it accepts the decimal numbers up to `2^63 - 1`, as the
header documents.  The parsers of `Name`, `FaceUri` and `RouteOrigin` are parameters; an
exception is its message.  `CommandArguments`, a `std::map`, is a function from argument names.
-/

set_option autoImplicit false

namespace Nfd.Nfdc

open Network Mgmt

/-- `ArgValueType`. -/
inductive ArgValueType where
  | none
  | any
  | boolean
  | unsigned
  | string
  | reportFormat
  | name
  | faceUri
  | faceIdOrUri
  | facePersistency
  | routeOrigin
deriving DecidableEq, Repr

/-- `ReportFormat`. -/
inductive ReportFormat where
  | xml
  | text
deriving DecidableEq, Repr

/-- The values of `CommandArguments`, as the `ndn::any` holds them: `Name`, `FaceUri` and
`RouteOrigin` are the types `N`, `U` and `O`. -/
inductive ArgValue (N U O : Type) where
  | bool (value : Bool)
  | uint (value : Nat)
  | string (value : String)
  | strings (values : List String)
  | reportFormat (value : ReportFormat)
  | name (value : N)
  | faceUri (value : U)
  | facePersistency (value : FacePersistency)
  | routeOrigin (value : O)
deriving DecidableEq, Repr

/-- The parsers of ndn-cxx that `parseValue` calls: the `Name` and `FaceUri` constructors and
`boost::lexical_cast<RouteOrigin>`. -/
structure ValueParsers (N U O : Type) where
  name : String → Except String N
  faceUri : String → Except String U
  routeOrigin : String → Except String O

/-- `CommandDefinition::Arg`. -/
structure Arg where
  name : String
  valueType : ArgValueType
  isRequired : Bool
  metavar : String
deriving DecidableEq, Repr

/-- The argument tables of a `CommandDefinition`. -/
structure CommandDefinition where
  /-- `m_args`, one entry per name. -/
  args : List Arg
  /-- `m_requiredArgs`, in increasing order. -/
  requiredArgs : List String
  /-- `m_positionalArgs`, in the order `addArg` declared them. -/
  positionalArgs : List String
deriving DecidableEq, Repr

/-- `CommandArguments`. -/
abbrev CommandArguments (N U O : Type) := String → Option (ArgValue N U O)

namespace CommandDefinition

def empty : CommandDefinition := ⟨[], [], []⟩

/-- `m_args.find(name)`. -/
def findArg (d : CommandDefinition) (name : String) : Option Arg := d.args.find? (·.name == name)

/-- The argument a token names when `parse` reads it as a named argument: `m_args.find(token)`,
unless that is an ANY argument. -/
def namedArg (d : CommandDefinition) (token : String) : Option Arg :=
  (d.findArg token).filter (·.valueType != .any)

theorem findArg_name {d : CommandDefinition} {name : String} {arg : Arg} (found : d.findArg name = some arg) :
    arg.name = name := by
  simpa using List.find?_some found

theorem namedArg_eq_some {d : CommandDefinition} {token : String} {arg : Arg} :
    d.namedArg token = some arg ↔ d.findArg token = some arg ∧ arg.valueType ≠ .any := by
  simp [namedArg, Option.filter_eq_some_iff]

end CommandDefinition

/-- `getMetavarFromType`. -/
def getMetavarFromType : ArgValueType → String
  | .none => ""
  | .any => "args"
  | .boolean => "bool"
  | .unsigned => "uint"
  | .string => "str"
  | .reportFormat => "fmt"
  | .name => "name"
  | .faceUri => "uri"
  | .faceIdOrUri => "face"
  | .facePersistency => "persistency"
  | .routeOrigin => "origin"

/-- `std::set<std::string>::insert`: the set in increasing order, without repeats. -/
def insertName (name : String) (set : List String) : List String :=
  if name ∈ set then set else set.orderedInsert (· ≤ ·) name

namespace CommandDefinition

/-- `addArg`: `none` when one of its assertions fails, a name declared twice, a positional NONE
argument or a named-only ANY argument. -/
def addArg (name : String) (valueType : ArgValueType) (isRequired allowPositional : Bool)
    (metavar : String) (d : CommandDefinition) : Option CommandDefinition :=
  if (d.findArg name).isSome then none
  else if allowPositional && valueType == .none then none
  else if !allowPositional && valueType == .any then none
  else some
    { args := d.args ++
        [⟨name, valueType, isRequired, if metavar.isEmpty then getMetavarFromType valueType else metavar⟩]
      requiredArgs := if isRequired then insertName name d.requiredArgs else d.requiredArgs
      positionalArgs := if allowPositional then d.positionalArgs ++ [name] else d.positionalArgs }

end CommandDefinition

/-- The message of `boost::bad_lexical_cast`. -/
def badLexicalCast : String := "bad lexical cast: source type value could not be interpreted as target"

/-- The digits `boost::lexical_cast` reads as a magnitude of at most `bound`: at least one digit
and nothing else. -/
def readDigits (digits : List Char) (bound : Nat) : Option Nat :=
  if digits ≠ [] ∧ digits.all Char.isDigit ∧ decimalValue digits ≤ bound then some (decimalValue digits)
  else none

/-- `boost::lexical_cast<int64_t>`: an optional sign, then the digits of a value in range. -/
def lexicalCastInt64 : List Char → Option Int
  | '-' :: digits => (readDigits digits (2 ^ 63)).map fun magnitude => -Int.ofNat magnitude
  | '+' :: digits => (readDigits digits (2 ^ 63 - 1)).map Int.ofNat
  | digits => (readDigits digits (2 ^ 63 - 1)).map Int.ofNat

/-- `boost::lexical_cast<uint64_t>`, which negates a value with a minus sign modulo `2^64`. -/
def lexicalCastUInt64 : List Char → Option Nat
  | '-' :: digits => (readDigits digits (2 ^ 64 - 1)).map fun magnitude => (2 ^ 64 - magnitude) % 2 ^ 64
  | '+' :: digits => readDigits digits (2 ^ 64 - 1)
  | digits => readDigits digits (2 ^ 64 - 1)

theorem decimalValue_append_digit (digits : List Char) (c : Char) :
    decimalValue (digits ++ [c]) = decimalValue digits * 10 + (c.toNat - '0'.toNat) := by
  simp [decimalValue, List.foldl_append]

theorem digitChar_value {d : Nat} (small : d < 10) : (Nat.digitChar d).toNat - '0'.toNat = d := by
  have everyDigit : ∀ d < 10, (Nat.digitChar d).toNat - '0'.toNat = d := by decide
  exact everyDigit d small

/-- `toString v` reads back to `v`. -/
theorem decimalValue_toDigits (v : Nat) : decimalValue (Nat.toDigits 10 v) = v := by
  induction v using Nat.strong_induction_on with
  | _ v inductionHypothesis =>
    by_cases small : v < 10
    · rw [Nat.toDigits_of_lt_base small, ← List.nil_append [_], decimalValue_append_digit,
        digitChar_value small]
      simp [decimalValue]
    · have lastDigit : v % 10 < 10 := Nat.mod_lt v (by norm_num)
      have split : 10 * (v / 10) + v % 10 = v := Nat.div_add_mod v 10
      rw [← split, ← Nat.toDigits_append_toDigits (by norm_num) (by omega) lastDigit,
        Nat.toDigits_of_lt_base lastDigit, decimalValue_append_digit, digitChar_value lastDigit,
        inductionHypothesis (v / 10) (by omega)]
      omega

theorem readDigits_toDigits (v bound : Nat) :
    readDigits (Nat.toDigits 10 v) bound = if v ≤ bound then some v else none := by
  have nonEmpty : Nat.toDigits 10 v ≠ [] := List.ne_nil_of_length_pos Nat.length_toDigits_pos
  have digits : (Nat.toDigits 10 v).all Char.isDigit = true :=
    List.all_eq_true.mpr fun _ member => Nat.isDigit_of_mem_toDigits (by norm_num) (by norm_num) member
  simp [readDigits, nonEmpty, digits, decimalValue_toDigits]

theorem lexicalCastInt64_of_isDigit {c : Char} (digit : c.isDigit = true) (cs : List Char) :
    lexicalCastInt64 (c :: cs) = (readDigits (c :: cs) (2 ^ 63 - 1)).map Int.ofNat := by
  unfold lexicalCastInt64
  split
  · simp_all
  · simp_all
  · rfl

def parseBoolean (s : String) : Except String Bool :=
  if s = "on" ∨ s = "true" ∨ s = "enabled" ∨ s = "yes" ∨ s = "1" then .ok true
  else if s = "off" ∨ s = "false" ∨ s = "disabled" ∨ s = "no" ∨ s = "0" then .ok false
  else .error ("unrecognized boolean value '" ++ s ++ "'")

def parseFacePersistency (s : String) : Except String FacePersistency :=
  if s = "persistent" then .ok .persistencyPersistent
  else if s = "permanent" then .ok .persistencyPermanent
  else .error ("unrecognized FacePersistency '" ++ s ++ "'")

def parseReportFormat (s : String) : Except String ReportFormat :=
  if s = "xml" then .ok .xml
  else if s = "text" then .ok .text
  else .error ("unrecognized ReportFormat '" ++ s ++ "'")

section Parse

variable {N U O : Type} (parsers : ValueParsers N U O)

/-- `CommandDefinition::parseValue`.  `parse` never asks it for a NONE or an ANY value, where the
source reaches `NDN_CXX_UNREACHABLE`. -/
def parseValue : ArgValueType → String → Except String (ArgValue N U O)
  | .none, _ | .any, _ => .error "unreachable"
  | .boolean, token => (parseBoolean token).map .bool
  | .unsigned, token =>
      -- boost::lexical_cast<uint64_t> will accept negative number
      match lexicalCastInt64 token.toList with
      | none => .error badLexicalCast
      | some v => if v < 0 then .error ("value '" ++ token ++ "' is negative") else .ok (.uint v.toNat)
  | .string, token => .ok (.string token)
  | .reportFormat, token => (parseReportFormat token).map .reportFormat
  | .name, token => (parsers.name token).map .name
  | .faceUri, token => (parsers.faceUri token).map .faceUri
  | .faceIdOrUri, token =>
      match lexicalCastUInt64 token.toList with
      | some v => .ok (.uint v)
      | none => (parsers.faceUri token).map .faceUri
  | .facePersistency, token => (parseFacePersistency token).map .facePersistency
  | .routeOrigin, token => (parsers.routeOrigin token).map .routeOrigin

/-- How `parse`'s inner loop ends on a token that is not a named argument. -/
inductive PositionalMatch (N U O : Type) where
  /-- The ANY argument `name` takes this token and every token after it. -/
  | swallowed (name : String) (values : List String)
  /-- The positional argument at `index`, named `name`, takes the token. -/
  | taken (index : Nat) (name : String) (value : ArgValue N U O)
  /-- The loop reached the end without finding a match. -/
  | unmatched

/-- `parse`'s inner loop on `token`, followed by `later`: the positional arguments `names`, the
first at `positionalArgIndex`, tried in turn. -/
def parsePositional (d : CommandDefinition) (token : String) (later : List String) :
    List String → Nat → Except String (PositionalMatch N U O)
  | [], _ => .ok .unmatched
  | name :: names, positionalArgIndex =>
      match d.findArg name with
      | none => .error "map::at"
      | some arg =>
          if arg.valueType = .any then .ok (.swallowed arg.name (token :: later))
          else
            match parseValue parsers arg.valueType token with
            | .ok value => .ok (.taken positionalArgIndex arg.name value)
            | .error e =>
                -- the current token must be parsed as the value for a required arg; for an
                -- optional one it may be a value for the next positional argument
                if arg.isRequired then
                  .error ("cannot parse '" ++ token ++ "' as an argument name or as " ++ arg.metavar ++
                    " for " ++ arg.name ++ " (" ++ e ++ ")")
                else parsePositional d token later names (positionalArgIndex + 1)

/-- `parse`'s loop over the tokens not read yet, from `positionalArgIndex` and `ca`. -/
def parseTokens (d : CommandDefinition) :
    List String → Nat → CommandArguments N U O → Except String (CommandArguments N U O)
  | [], _, ca => .ok ca
  | token :: rest, positionalArgIndex, ca =>
      match d.namedArg token with
      | some arg =>
          -- a named argument disallows positional arguments after it
          if arg.valueType = .none then
            parseTokens d rest d.positionalArgs.length (Function.update ca arg.name (some (.bool true)))
          else
            match rest with
            | [] => .error (arg.name ++ ": " ++ arg.metavar ++ " is missing")
            | valueToken :: rest =>
                match parseValue parsers arg.valueType valueToken with
                | .error e =>
                    .error (arg.name ++ ": cannot parse '" ++ valueToken ++ "' as " ++ arg.metavar ++
                      " (" ++ e ++ ")")
                | .ok value =>
                    parseTokens d rest d.positionalArgs.length (Function.update ca arg.name (some value))
      | none =>
          match parsePositional parsers d token rest (d.positionalArgs.drop positionalArgIndex)
              positionalArgIndex with
          | .error e => .error e
          | .ok .unmatched => .error ("cannot parse '" ++ token ++ "' as an argument name")
          | .ok (.swallowed name values) => .ok (Function.update ca name (some (.strings values)))
          | .ok (.taken index name value) =>
              -- the token is accepted; don't parse as the same positional argument again
              parseTokens d rest (index + 1) (Function.update ca name (some value))

/-- One round of `parse`'s loop, on `token` followed by `rest`: the result it throws or returns,
or the tokens not read yet, `positionalArgIndex` and the arguments it continues with. -/
def parseRound (d : CommandDefinition) (token : String) (rest : List String) (positionalArgIndex : Nat)
    (ca : CommandArguments N U O) :
    Except String (CommandArguments N U O) ⊕ (List String × Nat × CommandArguments N U O) :=
  match d.namedArg token with
  | some arg =>
      if arg.valueType = .none then
        .inr (rest, d.positionalArgs.length, Function.update ca arg.name (some (.bool true)))
      else
        match rest with
        | [] => .inl (.error (arg.name ++ ": " ++ arg.metavar ++ " is missing"))
        | valueToken :: rest =>
            match parseValue parsers arg.valueType valueToken with
            | .error e =>
                .inl (.error (arg.name ++ ": cannot parse '" ++ valueToken ++ "' as " ++ arg.metavar ++
                  " (" ++ e ++ ")"))
            | .ok value => .inr (rest, d.positionalArgs.length, Function.update ca arg.name (some value))
  | none =>
      match parsePositional parsers d token rest (d.positionalArgs.drop positionalArgIndex)
          positionalArgIndex with
      | .error e => .inl (.error e)
      | .ok .unmatched => .inl (.error ("cannot parse '" ++ token ++ "' as an argument name"))
      | .ok (.swallowed name values) => .inl (.ok (Function.update ca name (some (.strings values))))
      | .ok (.taken index name value) => .inr (rest, index + 1, Function.update ca name (some value))

/-- `CommandDefinition::parse(tokens, start)`. -/
def parse (d : CommandDefinition) (tokens : List String) (start : Nat) :
    Except String (CommandArguments N U O) :=
  match parseTokens parsers d (tokens.drop start) 0 (fun _ => none) with
  | .error e => .error e
  | .ok ca =>
      match d.requiredArgs.find? (fun argName => (ca argName).isNone) with
      | some argName => .error (argName ++ ": required argument is missing")
      | none => .ok ca

end Parse

section Loop

variable {N U O : Type} (parsers : ValueParsers N U O) (d : CommandDefinition)

theorem parseValue_ne_any {valueType : ArgValueType} {token : String} {value : ArgValue N U O}
    (parsed : parseValue parsers valueType token = .ok value) : valueType ≠ .none ∧ valueType ≠ .any := by
  constructor <;> rintro rfl <;> cases parsed

/-- The loop is a run of rounds: on a token it ends as `parseRound` ends, or goes on from the
state the round leaves.  The lemmas below cite this one and never unfold `parseTokens`. -/
theorem parseTokens_cons (token : String) (rest : List String) (positionalArgIndex : Nat)
    (ca : CommandArguments N U O) :
    parseTokens parsers d (token :: rest) positionalArgIndex ca =
      match parseRound parsers d token rest positionalArgIndex ca with
      | .inl result => result
      | .inr (rest, positionalArgIndex, ca) => parseTokens parsers d rest positionalArgIndex ca := by
  rw [parseTokens, parseRound]
  -- split on what the round reads, in the order it reads it
  cases d.namedArg token with
  | some arg =>
      dsimp only
      split
      · rfl
      · cases rest with
        | nil => rfl
        | cons valueToken rest =>
            dsimp only
            cases parseValue parsers arg.valueType valueToken <;> rfl
  | none =>
      dsimp only
      cases parsePositional parsers d token rest (d.positionalArgs.drop positionalArgIndex) positionalArgIndex with
      | error e => rfl
      | ok m => cases m <;> rfl

theorem parseTokens_namedNone {token : String} {rest : List String} {arg : Arg}
    (named : d.namedArg token = some arg) (noValue : arg.valueType = .none)
    (positionalArgIndex : Nat) (ca : CommandArguments N U O) :
    parseTokens parsers d (token :: rest) positionalArgIndex ca =
      parseTokens parsers d rest d.positionalArgs.length (Function.update ca arg.name (some (.bool true))) := by
  simp [parseTokens_cons, parseRound, named, noValue]

theorem parseTokens_namedValue {token valueToken : String} {rest : List String} {arg : Arg}
    {value : ArgValue N U O} (named : d.namedArg token = some arg)
    (parsed : parseValue parsers arg.valueType valueToken = .ok value)
    (positionalArgIndex : Nat) (ca : CommandArguments N U O) :
    parseTokens parsers d (token :: valueToken :: rest) positionalArgIndex ca =
      parseTokens parsers d rest d.positionalArgs.length (Function.update ca arg.name (some value)) := by
  simp [parseTokens_cons, parseRound, named, (parseValue_ne_any parsers parsed).1, parsed]

theorem parseTokens_namedMissing {token : String} {arg : Arg}
    (named : d.namedArg token = some arg) (hasValue : arg.valueType ≠ .none)
    (positionalArgIndex : Nat) (ca : CommandArguments N U O) :
    parseTokens parsers d [token] positionalArgIndex ca =
      .error (arg.name ++ ": " ++ arg.metavar ++ " is missing") := by
  simp [parseTokens_cons, parseRound, named, hasValue]

theorem parseTokens_namedBad {token valueToken : String} {rest : List String} {arg : Arg} {e : String}
    (named : d.namedArg token = some arg) (hasValue : arg.valueType ≠ .none)
    (failed : parseValue parsers arg.valueType valueToken = .error e)
    (positionalArgIndex : Nat) (ca : CommandArguments N U O) :
    parseTokens parsers d (token :: valueToken :: rest) positionalArgIndex ca =
      .error (arg.name ++ ": cannot parse '" ++ valueToken ++ "' as " ++ arg.metavar ++ " (" ++ e ++ ")") := by
  simp [parseTokens_cons, parseRound, named, hasValue, failed]

theorem parseTokens_taken {token : String} {rest : List String} {positionalArgIndex index : Nat}
    {name : String} {value : ArgValue N U O} (notNamed : d.namedArg token = none)
    (taken : parsePositional parsers d token rest (d.positionalArgs.drop positionalArgIndex)
      positionalArgIndex = .ok (.taken index name value)) (ca : CommandArguments N U O) :
    parseTokens parsers d (token :: rest) positionalArgIndex ca =
      parseTokens parsers d rest (index + 1) (Function.update ca name (some value)) := by
  simp [parseTokens_cons, parseRound, notNamed, taken]

theorem parseTokens_unmatched {token : String} {rest : List String} {positionalArgIndex : Nat}
    (notNamed : d.namedArg token = none)
    (unmatched : parsePositional parsers d token rest (d.positionalArgs.drop positionalArgIndex)
      positionalArgIndex = .ok .unmatched) (ca : CommandArguments N U O) :
    parseTokens parsers d (token :: rest) positionalArgIndex ca =
      .error ("cannot parse '" ++ token ++ "' as an argument name") := by
  simp [parseTokens_cons, parseRound, notNamed, unmatched]

theorem parseTokens_positionalError {token : String} {rest : List String} {positionalArgIndex : Nat}
    {e : String} (notNamed : d.namedArg token = none)
    (failed : parsePositional parsers d token rest (d.positionalArgs.drop positionalArgIndex)
      positionalArgIndex = .error e) (ca : CommandArguments N U O) :
    parseTokens parsers d (token :: rest) positionalArgIndex ca = .error e := by
  simp [parseTokens_cons, parseRound, notNamed, failed]

theorem parsePositional_first {token : String} {later names : List String} {name : String}
    {arg : Arg} {value : ArgValue N U O} (found : d.findArg name = some arg)
    (parsed : parseValue parsers arg.valueType token = .ok value) (positionalArgIndex : Nat) :
    parsePositional parsers d token later (name :: names) positionalArgIndex =
      .ok (.taken positionalArgIndex name value) := by
  simp [parsePositional, found, (parseValue_ne_any parsers parsed).2, parsed,
    CommandDefinition.findArg_name found]

/-- A token that no positional argument from `positionalArgIndex` on accepts is not taken. -/
theorem parsePositional_unmatched {token : String} {later : List String} :
    ∀ (names : List String) (positionalArgIndex : Nat),
      (∀ name ∈ names, ∀ arg, d.findArg name = some arg →
        arg.valueType ≠ .any ∧ ∃ e, parseValue parsers arg.valueType token = .error e) →
      ∀ m, parsePositional parsers d token later names positionalArgIndex = .ok m → m = .unmatched
  | [], _, _, m, result => by
      simp only [parsePositional, Except.ok.injEq] at result
      exact result.symm
  | name :: names, positionalArgIndex, rejects, m, result => by
      rw [parsePositional] at result
      cases found : d.findArg name with
      | none => simp [found] at result
      | some arg =>
          obtain ⟨notAny, e, failed⟩ := rejects name List.mem_cons_self arg found
          simp only [found, notAny, if_false, failed] at result
          split at result
          · cases result
          · exact parsePositional_unmatched names (positionalArgIndex + 1)
              (fun name' member => rejects name' (List.mem_cons_of_mem name member)) m result

/-- The states `parse`'s loop passes through when it starts on `tokens`: the tokens not read yet,
`positionalArgIndex` and the arguments read so far. -/
inductive Reaches (tokens : List String) : List String → Nat → CommandArguments N U O → Prop
  | start : Reaches tokens tokens 0 (fun _ => none)
  | namedNone {token : String} {rest : List String} {positionalArgIndex : Nat}
      {ca : CommandArguments N U O} {arg : Arg} :
      Reaches tokens (token :: rest) positionalArgIndex ca → d.namedArg token = some arg →
      arg.valueType = .none →
      Reaches tokens rest d.positionalArgs.length (Function.update ca arg.name (some (.bool true)))
  | namedValue {token valueToken : String} {rest : List String} {positionalArgIndex : Nat}
      {ca : CommandArguments N U O} {arg : Arg} {value : ArgValue N U O} :
      Reaches tokens (token :: valueToken :: rest) positionalArgIndex ca → d.namedArg token = some arg →
      parseValue parsers arg.valueType valueToken = .ok value →
      Reaches tokens rest d.positionalArgs.length (Function.update ca arg.name (some value))
  | taken {token : String} {rest : List String} {positionalArgIndex index : Nat}
      {ca : CommandArguments N U O} {name : String} {value : ArgValue N U O} :
      Reaches tokens (token :: rest) positionalArgIndex ca → d.namedArg token = none →
      parsePositional parsers d token rest (d.positionalArgs.drop positionalArgIndex)
        positionalArgIndex = .ok (.taken index name value) →
      Reaches tokens rest (index + 1) (Function.update ca name (some value))

/-- The run lemma: the loop started on `tokens` ends as it ends from any state it reaches. -/
theorem Reaches.parseTokens_eq {tokens rest : List String} {positionalArgIndex : Nat}
    {ca : CommandArguments N U O} (reaches : Reaches parsers d tokens rest positionalArgIndex ca) :
    parseTokens parsers d tokens 0 (fun _ => none) = parseTokens parsers d rest positionalArgIndex ca := by
  induction reaches with
  | start => rfl
  | namedNone _ named noValue inductionHypothesis =>
      rw [inductionHypothesis, parseTokens_namedNone parsers d named noValue]
  | namedValue _ named parsed inductionHypothesis =>
      rw [inductionHypothesis, parseTokens_namedValue parsers d named parsed]
  | taken _ notNamed taken inductionHypothesis =>
      rw [inductionHypothesis, parseTokens_taken parsers d notNamed taken]

theorem parse_of_parseTokens_error {tokens : List String} {start : Nat} {e : String}
    (failed : parseTokens parsers d (tokens.drop start) 0 (fun _ => none) = .error e) :
    parse parsers d tokens start = .error e := by
  simp [parse, failed]

theorem foldl_update_apply (A : CommandArguments N U O) (x : String) :
    ∀ (names : List String) (ca : CommandArguments N U O),
      names.foldl (fun ca name => Function.update ca name (A name)) ca x = if x ∈ names then A x else ca x
  | [], ca => by simp
  | name :: names, ca => by
      rw [List.foldl_cons, foldl_update_apply A x names]
      by_cases later : x ∈ names
      · simp [later]
      · by_cases same : x = name
        · subst same
          simp [later]
        · simp [later, same]

/-- Named pairs `name valueToken` set each name to the value its token parses to. -/
theorem parseTokens_namedPairs (tok : String → String) (A : CommandArguments N U O) :
    ∀ (order : List String) (positionalArgIndex : Nat) (ca : CommandArguments N U O),
      (∀ name ∈ order, ∃ arg value, A name = some value ∧ d.findArg name = some arg ∧
        parseValue parsers arg.valueType (tok name) = .ok value) →
      parseTokens parsers d (order.flatMap fun name => [name, tok name]) positionalArgIndex ca =
        .ok (order.foldl (fun ca name => Function.update ca name (A name)) ca)
  | [], _, ca, _ => rfl
  | name :: order, positionalArgIndex, ca, written => by
      obtain ⟨arg, value, assigned, found, parsed⟩ := written name List.mem_cons_self
      have named : d.namedArg name = some arg :=
        CommandDefinition.namedArg_eq_some.mpr ⟨found, (parseValue_ne_any parsers parsed).2⟩
      rw [List.flatMap_cons, List.cons_append, List.cons_append, List.nil_append,
        parseTokens_namedValue parsers d named parsed, CommandDefinition.findArg_name found,
        ← assigned, List.foldl_cons]
      exact parseTokens_namedPairs tok A order _ _ fun name' member =>
        written name' (List.mem_cons_of_mem name member)

/-- Tokens for the next positional arguments set each of them to the value its token parses to. -/
theorem parseTokens_positionalTokens (tok : String → String) (A : CommandArguments N U O)
    (rest more : List String) :
    ∀ (names : List String) (positionalArgIndex : Nat) (ca : CommandArguments N U O),
      d.positionalArgs.drop positionalArgIndex = names ++ more →
      (∀ name ∈ names, d.findArg (tok name) = none ∧ ∃ arg value, A name = some value ∧
        d.findArg name = some arg ∧ parseValue parsers arg.valueType (tok name) = .ok value) →
      parseTokens parsers d (names.map tok ++ rest) positionalArgIndex ca =
        parseTokens parsers d rest (positionalArgIndex + names.length)
          (names.foldl (fun ca name => Function.update ca name (A name)) ca)
  | [], positionalArgIndex, ca, _, _ => rfl
  | name :: names, positionalArgIndex, ca, next, written => by
      obtain ⟨notName, arg, value, assigned, found, parsed⟩ := written name List.mem_cons_self
      have notNamed : d.namedArg (tok name) = none := by
        simp [CommandDefinition.namedArg, notName]
      have taken : parsePositional parsers d (tok name) (names.map tok ++ rest)
          (d.positionalArgs.drop positionalArgIndex) positionalArgIndex =
            .ok (.taken positionalArgIndex name value) := by
        rw [next, List.cons_append]
        exact parsePositional_first parsers d found parsed positionalArgIndex
      have after : d.positionalArgs.drop (positionalArgIndex + 1) = names ++ more := by
        rw [← List.tail_drop, next, List.cons_append, List.tail_cons]
      rw [List.map_cons, List.cons_append, parseTokens_taken parsers d notNamed taken, ← assigned,
        parseTokens_positionalTokens tok A rest more names (positionalArgIndex + 1) _ after
          fun name' member => written name' (List.mem_cons_of_mem name member),
        List.length_cons, List.foldl_cons, Nat.add_assoc, Nat.add_comm 1]

/-- A command line of tokens for the positional arguments `p₁ … pⱼ`, then the other assigned
arguments as named pairs in any order, parses to exactly the assignment. -/
theorem parse_written (tok : String → String) (A : CommandArguments N U O) (j : Nat) (order : List String)
    (written : ∀ name value, A name = some value → ∃ arg, d.findArg name = some arg ∧
      parseValue parsers arg.valueType (tok name) = .ok value)
    (required : ∀ argName ∈ d.requiredArgs, A argName ≠ none)
    (positional : ∀ name ∈ d.positionalArgs.take j, A name ≠ none ∧ d.findArg (tok name) = none)
    (enumerates : ∀ name, name ∈ order ↔ A name ≠ none ∧ name ∉ d.positionalArgs.take j) :
    parse parsers d ((d.positionalArgs.take j).map tok ++ order.flatMap fun name => [name, tok name]) 0 =
      .ok A := by
  have writtenAt : ∀ name, A name ≠ none → ∃ arg value, A name = some value ∧
      d.findArg name = some arg ∧ parseValue parsers arg.valueType (tok name) = .ok value := by
    intro name assigned
    obtain ⟨value, isValue⟩ := Option.ne_none_iff_exists'.mp assigned
    obtain ⟨arg, found, parsed⟩ := written name value isValue
    exact ⟨arg, value, isValue, found, parsed⟩
  -- the positional tokens first, then the named pairs
  have positionalRun := parseTokens_positionalTokens parsers d tok A (order.flatMap fun name => [name, tok name])
    (d.positionalArgs.drop j) (d.positionalArgs.take j) 0 (fun _ => none)
    (by rw [List.drop_zero, List.take_append_drop])
    (fun name member => ⟨(positional name member).2, writtenAt name (positional name member).1⟩)
  have namedRun := parseTokens_namedPairs parsers d tok A order (0 + (d.positionalArgs.take j).length)
    ((d.positionalArgs.take j).foldl (fun ca name => Function.update ca name (A name)) fun _ => none)
    (fun name member => writtenAt name ((enumerates name).mp member).1)
  have assignment : order.foldl (fun ca name => Function.update ca name (A name))
      ((d.positionalArgs.take j).foldl (fun ca name => Function.update ca name (A name)) fun _ => none) = A := by
    funext x
    rw [foldl_update_apply, foldl_update_apply]
    by_cases inOrder : x ∈ order
    · rw [if_pos inOrder]
    · by_cases inPrefix : x ∈ d.positionalArgs.take j
      · rw [if_neg inOrder, if_pos inPrefix]
      · have unassigned : A x = none := by
          by_contra assigned
          exact inOrder ((enumerates x).mpr ⟨assigned, inPrefix⟩)
        rw [if_neg inOrder, if_neg inPrefix, unassigned]
  have noneMissing : d.requiredArgs.find? (fun argName => (A argName).isNone) = none :=
    List.find?_eq_none.mpr fun argName member => by simpa using required argName member
  simp only [parse, List.drop_zero, positionalRun, namedRun, assignment, noneMissing]

theorem parse_ok_required {tokens : List String} {start : Nat} {ca : CommandArguments N U O}
    (parsed : parse parsers d tokens start = .ok ca) : ∀ argName ∈ d.requiredArgs, ca argName ≠ none := by
  unfold parse at parsed
  split at parsed
  · cases parsed
  · rename_i loopResult _
    split at parsed
    · cases parsed
    · rename_i noneMissing
      cases parsed
      intro argName member
      simpa using List.find?_eq_none.mp noneMissing argName member

theorem parse_namedMissing {tokens : List String} {start positionalArgIndex : Nat}
    {ca : CommandArguments N U O} {token : String} {arg : Arg}
    (reaches : Reaches parsers d (tokens.drop start) [token] positionalArgIndex ca)
    (named : d.namedArg token = some arg) (hasValue : arg.valueType ≠ .none) :
    parse parsers d tokens start = .error (arg.name ++ ": " ++ arg.metavar ++ " is missing") :=
  parse_of_parseTokens_error parsers d
    (reaches.parseTokens_eq.trans (parseTokens_namedMissing parsers d named hasValue _ _))

theorem parse_unacceptable {tokens rest : List String} {start positionalArgIndex : Nat}
    {ca : CommandArguments N U O} {token : String}
    (reaches : Reaches parsers d (tokens.drop start) (token :: rest) positionalArgIndex ca)
    (notNamed : d.namedArg token = none)
    (rejected : ∀ name ∈ d.positionalArgs.drop positionalArgIndex, ∀ arg, d.findArg name = some arg →
      arg.valueType ≠ .any ∧ ∃ e, parseValue parsers arg.valueType token = .error e) :
    ∃ e, parse parsers d tokens start = .error e := by
  rw [parse, reaches.parseTokens_eq]
  cases result : parsePositional parsers d token rest (d.positionalArgs.drop positionalArgIndex)
      positionalArgIndex with
  | error e => exact ⟨e, by rw [parseTokens_positionalError parsers d notNamed result]⟩
  | ok m =>
      have unmatched := parsePositional_unmatched parsers d _ positionalArgIndex rejected m result
      subst unmatched
      exact ⟨_, by rw [parseTokens_unmatched parsers d notNamed result]⟩

/-- After a named argument the loop takes no positional argument. -/
theorem parse_positionalAfterNamed {tokens rest : List String} {start positionalArgIndex : Nat}
    {ca : CommandArguments N U O} {token valueToken next : String} {arg : Arg}
    (reaches : Reaches parsers d (tokens.drop start) (token :: valueToken :: next :: rest) positionalArgIndex ca)
    (named : d.namedArg token = some arg) (hasValue : arg.valueType ≠ .none)
    (notNamed : d.namedArg next = none) :
    ∃ e, parse parsers d tokens start = .error e := by
  cases parsed : parseValue parsers arg.valueType valueToken with
  | error e =>
      exact ⟨_, parse_of_parseTokens_error parsers d
        (reaches.parseTokens_eq.trans (parseTokens_namedBad parsers d named hasValue parsed _ _))⟩
  | ok value =>
      refine parse_unacceptable parsers d (reaches.namedValue named parsed) notNamed ?_
      rw [List.drop_length]
      exact fun _ member => absurd member List.not_mem_nil

theorem parse_positionalAfterFlag {tokens rest : List String} {start positionalArgIndex : Nat}
    {ca : CommandArguments N U O} {token next : String} {arg : Arg}
    (reaches : Reaches parsers d (tokens.drop start) (token :: next :: rest) positionalArgIndex ca)
    (named : d.namedArg token = some arg) (noValue : arg.valueType = .none)
    (notNamed : d.namedArg next = none) :
    ∃ e, parse parsers d tokens start = .error e := by
  refine parse_unacceptable parsers d (reaches.namedNone named noValue) notNamed ?_
  rw [List.drop_length]
  exact fun _ member => absurd member List.not_mem_nil

theorem parseValue_unsigned_toString (v : Nat) :
    parseValue parsers .unsigned (toString v) =
      if v < 2 ^ 63 then .ok (.uint v) else .error badLexicalCast := by
  have digitsOf : (toString v).toList = Nat.toDigits 10 v := by
    show (Nat.repr v).toList = _
    simp [Nat.repr]
  obtain ⟨c, cs, split⟩ := List.exists_cons_of_ne_nil
    (List.ne_nil_of_length_pos (Nat.length_toDigits_pos (b := 10) (n := v)))
  have digit : c.isDigit = true :=
    Nat.isDigit_of_mem_toDigits (by norm_num) (by norm_num) (split ▸ List.mem_cons_self)
  have cast : lexicalCastInt64 (Nat.toDigits 10 v) =
      (readDigits (Nat.toDigits 10 v) (2 ^ 63 - 1)).map Int.ofNat := by
    rw [split, lexicalCastInt64_of_isDigit digit, ← split]
  simp only [parseValue, digitsOf, cast, readDigits_toDigits]
  by_cases small : v < 2 ^ 63
  · rw [if_pos (show v ≤ 2 ^ 63 - 1 by omega), if_pos small]
    simp
  · rw [if_neg (show ¬v ≤ 2 ^ 63 - 1 by omega), if_neg small]
    rfl

theorem parseValue_unsigned_negative {n : Nat} (positive : 0 < n) :
    parseValue parsers .unsigned ("-" ++ toString n) =
      if n ≤ 2 ^ 63 then .error ("value '" ++ ("-" ++ toString n) ++ "' is negative")
      else .error badLexicalCast := by
  have digitsOf : ("-" ++ toString n).toList = '-' :: Nat.toDigits 10 n := by
    show ("-" ++ Nat.repr n).toList = _
    simp [Nat.repr]
  simp only [parseValue, digitsOf, lexicalCastInt64, readDigits_toDigits]
  by_cases small : n ≤ 2 ^ 63
  · have negative : -(n : Int) < 0 := by omega
    rw [if_pos small, if_pos small, Option.map_some]
    exact if_pos negative
  · rw [if_neg small, if_neg small, Option.map_none]

/-- `parse` accepts exactly its grammar.  When every assigned value is written as a token that
`parseValue` maps back to it, the named pairs in any order parse to exactly the assignment, and
so do tokens for the first positional arguments followed by the others as named pairs.  In
whatever state its loop is, `parse` throws on a named argument without a value token, and on a
token that neither names an argument nor fits a remaining positional argument, in particular on
a positional token after a named argument; a parse that returns holds every required argument.
An UNSIGNED value reads back from its decimal form below `2^63`, is refused from `2^63` on, and
a negative one is refused. -/
theorem parse_accepts_grammar :
    (∀ (tok : String → String) (A : CommandArguments N U O) (order : List String),
      (∀ name value, A name = some value → ∃ arg, d.findArg name = some arg ∧
        parseValue parsers arg.valueType (tok name) = .ok value) →
      (∀ argName ∈ d.requiredArgs, A argName ≠ none) →
      (∀ name, name ∈ order ↔ A name ≠ none) →
      parse parsers d (order.flatMap fun name => [name, tok name]) 0 = .ok A) ∧
    (∀ (tok : String → String) (A : CommandArguments N U O) (j : Nat) (order : List String),
      (∀ name value, A name = some value → ∃ arg, d.findArg name = some arg ∧
        parseValue parsers arg.valueType (tok name) = .ok value) →
      (∀ name, A name ≠ none → d.findArg (tok name) = none) →
      (∀ argName ∈ d.requiredArgs, A argName ≠ none) →
      (∀ name ∈ d.positionalArgs.take j, A name ≠ none) →
      (∀ name, name ∈ order ↔ A name ≠ none ∧ name ∉ d.positionalArgs.take j) →
      parse parsers d ((d.positionalArgs.take j).map tok ++ order.flatMap fun name => [name, tok name]) 0 =
        .ok A) ∧
    (∀ (tokens : List String) (start : Nat) (ca : CommandArguments N U O),
      parse parsers d tokens start = .ok ca → ∀ argName ∈ d.requiredArgs, ca argName ≠ none) ∧
    (∀ (tokens : List String) (start positionalArgIndex : Nat) (ca : CommandArguments N U O)
        (token : String) (arg : Arg),
      Reaches parsers d (tokens.drop start) [token] positionalArgIndex ca →
      d.namedArg token = some arg → arg.valueType ≠ .none →
      parse parsers d tokens start = .error (arg.name ++ ": " ++ arg.metavar ++ " is missing")) ∧
    (∀ (tokens : List String) (start positionalArgIndex : Nat) (ca : CommandArguments N U O)
        (token : String) (rest : List String),
      Reaches parsers d (tokens.drop start) (token :: rest) positionalArgIndex ca →
      d.namedArg token = none →
      (∀ name ∈ d.positionalArgs.drop positionalArgIndex, ∀ arg, d.findArg name = some arg →
        arg.valueType ≠ .any ∧ ∃ e, parseValue parsers arg.valueType token = .error e) →
      ∃ e, parse parsers d tokens start = .error e) ∧
    (∀ (tokens : List String) (start positionalArgIndex : Nat) (ca : CommandArguments N U O)
        (token valueToken next : String) (rest : List String) (arg : Arg),
      Reaches parsers d (tokens.drop start) (token :: valueToken :: next :: rest) positionalArgIndex ca →
      d.namedArg token = some arg → arg.valueType ≠ .none → d.namedArg next = none →
      ∃ e, parse parsers d tokens start = .error e) ∧
    (∀ (tokens : List String) (start positionalArgIndex : Nat) (ca : CommandArguments N U O)
        (token next : String) (rest : List String) (arg : Arg),
      Reaches parsers d (tokens.drop start) (token :: next :: rest) positionalArgIndex ca →
      d.namedArg token = some arg → arg.valueType = .none → d.namedArg next = none →
      ∃ e, parse parsers d tokens start = .error e) ∧
    (∀ v : Nat, v < 2 ^ 63 → parseValue parsers .unsigned (toString v) = .ok (.uint v)) ∧
    (∀ v : Nat, 2 ^ 63 ≤ v → parseValue parsers .unsigned (toString v) = .error badLexicalCast) ∧
    (∀ n : Nat, 0 < n → ∃ e, parseValue parsers .unsigned ("-" ++ toString n) = .error e) := by
  refine ⟨fun tok A order written required enumerates => ?_,
    fun tok A j order written notNames required present enumerates => ?_,
    fun _ _ _ parsed => parse_ok_required parsers d parsed,
    fun _ _ _ _ _ _ reaches named hasValue => parse_namedMissing parsers d reaches named hasValue,
    fun _ _ _ _ _ _ reaches notNamed rejected => parse_unacceptable parsers d reaches notNamed rejected,
    fun _ _ _ _ _ _ _ _ _ reaches named hasValue notNamed =>
      parse_positionalAfterNamed parsers d reaches named hasValue notNamed,
    fun _ _ _ _ _ _ _ _ reaches named noValue notNamed =>
      parse_positionalAfterFlag parsers d reaches named noValue notNamed,
    fun v small => ?_, fun v large => ?_, fun n positive => ?_⟩
  · -- no positional token: the prefix of length 0
    have named := parse_written parsers d tok A 0 order written required
      (fun _ member => absurd member (by simp)) (by simpa using enumerates)
    simpa using named
  · exact parse_written parsers d tok A j order written required
      (fun name member => ⟨present name member, notNames name (present name member)⟩) enumerates
  · rw [parseValue_unsigned_toString, if_pos small]
  · rw [parseValue_unsigned_toString, if_neg (by omega)]
  · rw [parseValue_unsigned_negative parsers positive]
    split <;> exact ⟨_, rfl⟩

end Loop

/-- `face create` as the tests declare it: `remote`, a required positional FaceUri, then
`persistency`, an optional positional FacePersistency. -/
def faceCreate : CommandDefinition :=
  ((CommandDefinition.empty.addArg "remote" .faceUri true true "").bind
    (CommandDefinition.addArg "persistency" .facePersistency false true "")).getD .empty

/-- Parsers under which `udp4://router.example.com` is the one FaceUri. -/
def routerParsers : ValueParsers String String String :=
  ⟨.ok, fun s => if s = "udp4://router.example.com" then .ok s else .error "malformed FaceUri", .ok⟩

def routerArgs : CommandArguments String String String := fun name =>
  if name = "remote" then some (.faceUri "udp4://router.example.com")
  else if name = "persistency" then some (.facePersistency .persistencyPersistent)
  else none

def routerTokens (name : String) : String :=
  if name = "remote" then "udp4://router.example.com"
  else if name = "persistency" then "persistent"
  else ""

theorem parse_accepts_grammar_faceCreate :
    parse routerParsers faceCreate ["udp4://router.example.com", "persistency", "persistent"] 0 =
      .ok routerArgs :=
  (parse_accepts_grammar routerParsers faceCreate).2.1 routerTokens routerArgs 1 ["persistency"]
    (by
      intro name value assigned
      by_cases remote : name = "remote"
      · subst remote
        cases assigned
        exact ⟨_, rfl, rfl⟩
      · by_cases persistency : name = "persistency"
        · subst persistency
          cases assigned
          exact ⟨_, rfl, rfl⟩
        · simp [routerArgs, remote, persistency] at assigned)
    (by
      intro name assigned
      by_cases remote : name = "remote"
      · subst remote
        rfl
      · by_cases persistency : name = "persistency"
        · subst persistency
          rfl
        · simp [routerArgs, remote, persistency] at assigned)
    (by decide) (by decide)
    (by
      intro name
      by_cases remote : name = "remote"
      · subst remote
        decide
      · by_cases persistency : name = "persistency"
        · subst persistency
          decide
        · simp [routerArgs, remote, persistency])

/-- `uint64_t` values from `2^63` on are refused: `2^63` does not parse as UNSIGNED. -/
theorem parseValue_unsigned_refuses_two_pow_63 :
    2 ^ 63 < 2 ^ 64 ∧ parseValue routerParsers .unsigned (toString (2 ^ 63)) = .error badLexicalCast := by
  refine ⟨by decide, ?_⟩
  rw [parseValue_unsigned_toString, if_neg (lt_irrefl _)]

end Nfd.Nfdc
