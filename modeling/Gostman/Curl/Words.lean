import Gostman.Placeholders.Pattern
/-!
# Reading a curl command

`splitCommand` of `engine/curl.go`: a pasted command is split into words by
the rules of a POSIX shell, or by those of the Windows command line when it
looks like one.  The loops of the source move an index over the characters and
look ahead of it; here a step tells how many of the characters after its own
are done with it.
-/

namespace Gostman.Curl

open Gostman.Placeholders

/-! ## Which of the two -/

/-- `strings.ReplaceAll(command, "\r\n", "\n")`. -/
def unixLines : Text → Text
  | '\r' :: '\n' :: rest => '\n' :: unixLines rest
  | c :: rest => c :: unixLines rest
  | [] => []

def splitLines : Text → List Text
  | [] => [[]]
  | c :: rest =>
      if c = '\n' then [] :: splitLines rest
      else (splitLines rest).modifyHead (c :: ·)

def isBlank (c : Char) : Bool :=
  c = ' ' || c = '\t'

/-- `strings.HasSuffix(strings.TrimRight(line, " \t"), "^")`. -/
def endsInCaret (line : Text) : Bool :=
  (line.rdropWhile isBlank).getLast? = some '^'

def caretQuote : Text → Bool
  | [] => false
  | c :: rest => (c = '^' && rest.head? = some '"') || caretQuote rest

def isCmdCommand (command : Text) : Bool :=
  caretQuote command || (splitLines command).any endsInCaret

/-! ## The Windows command line -/

def cmdUnescape (quoted : Bool) : Text → Text
  | [] => []
  | [c] => if c = '^' ∧ quoted = false then [] else [c]
  | c :: d :: rest =>
      if c = '"' then c :: cmdUnescape (!quoted) (d :: rest)
      else if c = '^' ∧ quoted = false then
        if d = '\n' then cmdUnescape quoted rest else d :: cmdUnescape quoted rest
      else c :: cmdUnescape quoted (d :: rest)

/-- The words read so far, and the one that is being read. -/
structure Words where
  tokens : List Text
  current : Text
  inToken : Bool

namespace Words

def flush (words : Words) : Words :=
  if words.inToken then ⟨words.tokens ++ [words.current], [], false⟩ else words

def write (words : Words) (text : Text) : Words :=
  { words with current := words.current ++ text }

def begin (words : Words) : Words :=
  { words with inToken := true }

end Words

def isGap (c : Char) : Bool :=
  c = ' ' || c = '\t' || c = '\n'

/-- The loop of `crtSplit` at one character. -/
def crtStep (words : Words) (quoted : Bool) (c : Char) (rest : Text) : Words × Bool × Nat :=
  if c = '\\' then
    let count := 1 + (rest.takeWhile (· = '\\')).length
    if (rest.drop (count - 1)).head? = some '"' then
      let words := words.begin.write (List.replicate (count / 2) '\\')
      if count % 2 = 1 then (words.write ['"'], quoted, count) else (words, quoted, count - 1)
    else (words.begin.write (List.replicate ((count + 1) / 2) '\\'), quoted, count - 1)
  else if c = '"' then
    if quoted && rest.head? = some '"' then (words.begin.write ['"'], quoted, 1)
    else (words.begin, !quoted, 0)
  else if !quoted && isGap c then (words.flush, quoted, 0)
  else ((words.write [c]).begin, quoted, 0)

/-- The loop of `crtSplit`, where `skip` characters are already read. -/
def crtLoop : Nat → Words → Bool → Text → Words
  | _, words, _, [] => words
  | skip + 1, words, quoted, _ :: rest => crtLoop skip words quoted rest
  | 0, words, quoted, c :: rest =>
      let (words, quoted, skip) := crtStep words quoted c rest
      crtLoop skip words quoted rest

def crtSplit (command : Text) : List Text :=
  (crtLoop 0 ⟨[], [], false⟩ false command).flush.tokens

/-! ## A POSIX shell -/

def ansiCharacters : List (Char × Char) :=
  [('n', '\n'), ('t', '\t'), ('r', '\r'), ('a', '\x07'), ('b', '\x08'), ('f', '\x0c'),
    ('v', '\x0b'), ('e', '\x1b'), ('E', '\x1b')]

def ansiNumbers : List (Char × Nat × Nat) :=
  [('x', 16, 2), ('u', 16, 4), ('U', 16, 8)]

def digitIn (base : Nat) (c : Char) : Option Nat :=
  let value :=
    if '0' ≤ c ∧ c ≤ '9' then some (c.toNat - '0'.toNat)
    else if 'a' ≤ c ∧ c ≤ 'f' then some (c.toNat - 'a'.toNat + 10)
    else if 'A' ≤ c ∧ c ≤ 'F' then some (c.toNat - 'A'.toNat + 10)
    else none
  value.filter (· < base)

/-- `string(rune(value))`: a number that is no character gives U+FFFD. -/
def runeText (value : Nat) : Text :=
  if value.isValidChar then [Char.ofNat value] else ['\uFFFD']

def ansiNumber (text : Text) (base digits : Nat) : Option (Text × Nat) :=
  let found := (text.take digits).takeWhile fun c => (digitIn base c).isSome
  if found = [] then none
  else
    let value := found.foldl (fun value c => base * value + (digitIn base c).getD 0) 0
    some (runeText value, found.length)

/-- `ansiEscape`: the text for what follows a backslash, and how many
characters it took. -/
def ansiEscape (c : Char) (rest : Text) : Text × Nat :=
  match ansiCharacters.lookup c with
  | some text => ([text], 1)
  | none =>
      match ansiNumbers.lookup c with
      | some (base, digits) =>
          match ansiNumber rest base digits with
          | some (text, used) => (text, used + 1)
          | none => (['\\', c], 1)
      | none =>
          match ansiNumber (c :: rest) 8 3 with
          | some (text, used) => (text, used)
          | none => ([c], 1)

inductive Quote where
  | none
  | single
  | double
  deriving DecidableEq

structure Shell where
  words : Words
  quote : Quote
  ansi : Bool

namespace Shell

def write (shell : Shell) (text : Text) : Shell :=
  { shell with words := shell.words.write text }

def singleStep (shell : Shell) (c : Char) (rest : Text) : Shell × Nat :=
  if c = '\'' then ({ shell with quote := .none, ansi := false }, 0)
  else
    match rest with
    | [] => (shell.write [c], 0)
    | d :: after =>
        if shell.ansi = true ∧ c = '\\' then
          let (text, used) := ansiEscape d after
          (shell.write text, used)
        else (shell.write [c], 0)

def doubleStep (shell : Shell) (c : Char) (rest : Text) : Shell × Nat :=
  if c = '"' then ({ shell with quote := .none }, 0)
  else
    match rest with
    | [] => (shell.write [c], 0)
    | d :: _ =>
        if c = '\\' ∧ d ∈ ['"', '\\', '$', '`', '\n'] then
          if d = '\n' then (shell, 1) else (shell.write [d], 1)
        else (shell.write [c], 0)

def bareStep (shell : Shell) (c : Char) (rest : Text) : Shell × Nat :=
  let other : Shell × Nat :=
    if isGap c then ({ shell with words := shell.words.flush }, 0)
    else ({ shell with words := (shell.words.write [c]).begin }, 0)
  if c = '\'' then ({ shell with words := shell.words.begin, quote := .single }, 0)
  else if c = '"' then ({ shell with words := shell.words.begin, quote := .double }, 0)
  else
    match rest with
    | [] => other
    | d :: _ =>
        if c = '$' ∧ d = '\'' then
          ({ shell with words := shell.words.begin, quote := .single, ansi := true }, 1)
        else if c = '\\' then
          if d = '\n' then (shell, 1)
          else ({ shell with words := (shell.words.write [d]).begin }, 1)
        else if c = '`' ∧ d = '\n' then (shell, 1)
        else other

end Shell

/-- The loop of `shellSplit` at one character. -/
def shellStep (shell : Shell) (c : Char) (rest : Text) : Shell × Nat :=
  match shell.quote with
  | .single => shell.singleStep c rest
  | .double => shell.doubleStep c rest
  | .none => shell.bareStep c rest

/-- The loop of `shellSplit`, where `skip` characters are already read. -/
def shellLoop : Nat → Shell → Text → Shell
  | _, shell, [] => shell
  | skip + 1, shell, _ :: rest => shellLoop skip shell rest
  | 0, shell, c :: rest =>
      let (shell, skip) := shellStep shell c rest
      shellLoop skip shell rest

def shellSplit (command : Text) : Option (List Text) :=
  let shell := shellLoop 0 ⟨⟨[], [], false⟩, .none, false⟩ command
  if shell.quote = .none then some shell.words.flush.tokens else none

def splitCommand (command : Text) : Option (List Text) :=
  let command := unixLines command
  if isCmdCommand command then some (crtSplit (cmdUnescape false command))
  else shellSplit command

end Gostman.Curl

/-!
# Writing a curl command

`shellQuote` of `importer/export_curl.go`: a word is written in single quotes,
and each of its placeholders as a shell variable in double quotes.
-/

namespace Gostman.Curl

open Gostman.Placeholders

def cutPair (a b : Char) : Text → Option (Text × Text)
  | c :: d :: rest =>
      if c = a ∧ d = b then some ([], rest)
      else (cutPair a b (d :: rest)).map fun (before, after) => (c :: before, after)
  | _ => none

theorem cutPair_length {a b : Char} {text before after : Text}
    (h : cutPair a b text = some (before, after)) : after.length < text.length := by
  induction text generalizing before with
  | nil => exact absurd h (by simp [cutPair])
  | cons c rest ih =>
    cases rest with
    | nil => exact absurd h (by simp [cutPair])
    | cons d rest =>
      rw [cutPair] at h
      split at h
      · obtain ⟨-, rfl⟩ := Prod.mk.inj (Option.some.inj h)
        simp only [List.length_cons]
        omega
      · obtain ⟨⟨front, back⟩, hcut, heq⟩ := Option.map_eq_some_iff.1 h
        obtain ⟨-, rfl⟩ := Prod.mk.inj heq
        exact Nat.lt_succ_of_lt (ih hcut)

theorem cutPair_eq {a b : Char} {text before after : Text}
    (h : cutPair a b text = some (before, after)) : text = before ++ a :: b :: after := by
  induction text generalizing before with
  | nil => exact absurd h (by simp [cutPair])
  | cons c rest ih =>
    cases rest with
    | nil => exact absurd h (by simp [cutPair])
    | cons d rest =>
      rw [cutPair] at h
      split at h
      case isTrue hpair =>
        obtain ⟨rfl, rfl⟩ := Prod.mk.inj (Option.some.inj h)
        rw [hpair.1, hpair.2]
        rfl
      case isFalse =>
        obtain ⟨⟨front, back⟩, hcut, heq⟩ := Option.map_eq_some_iff.1 h
        obtain ⟨rfl, rfl⟩ := Prod.mk.inj heq
        rw [ih hcut]
        rfl

/-- What `splitPlaceholders` finds in a word. -/
inductive Segment where
  | literal (text : Text)
  | placeholder (name : Text)

def splitPlaceholders (remaining : Text) : List Segment :=
  if remaining = [] then []
  else
    match _hopen : cutPair '{' '{' remaining with
    | none => [.literal remaining]
    | some (before, after) =>
        match _hclose : cutPair '}' '}' after with
        | none => [.literal remaining]
        | some (raw, rest) =>
            .literal before :: .placeholder (trimSpace raw) :: splitPlaceholders rest
termination_by remaining.length
decreasing_by
  exact (cutPair_length _hclose).trans (cutPair_length _hopen)

def isNameChar (c : Char) : Bool :=
  ('a' ≤ c && c ≤ 'z') || ('A' ≤ c && c ≤ 'Z') || ('0' ≤ c && c ≤ '9') || c = '_'

def shellName (name : Text) : Text :=
  let out := name.map fun c => if isNameChar c then c else '_'
  match out with
  | c :: _ => if c < '0' ∨ '9' < c then out else '_' :: out
  | [] => ['_']

/-- `strings.ReplaceAll(value, "'", "'\\''")`. -/
def escaped (value : Text) : Text :=
  value.flatMap fun c => if c = '\'' then ['\'', '\\', '\'', '\''] else [c]

def singleQuoted (value : Text) : Text :=
  let value := value.filter (· ≠ '\x00')
  if value = [] then [] else '\'' :: escaped value ++ ['\'']

def reference (name : Text) : Text :=
  ['$', '{'] ++ shellName name ++ ['}']

/-- What `shellQuote` writes for one segment. -/
def Segment.quoted : Segment → Text
  | .literal text => singleQuoted text
  | .placeholder name => '"' :: reference name ++ ['"']

/-- `shellQuote`, from what `splitPlaceholders` finds on. -/
def quotedWord (segments : List Segment) : Text :=
  let out := segments.flatMap Segment.quoted
  if out = [] then ['\'', '\''] else out

def shellQuote (value : Text) : Text :=
  quotedWord (splitPlaceholders value)

/-- What stands between two words: a space, or `curlJoin`. -/
inductive Gap where
  | space
  | curlJoin

def Gap.text : Gap → Text
  | .space => [' ']
  | .curlJoin => [' ', '\\', '\n', ' ', ' ']

/-- A command: its first word, and each further word after a gap. -/
def command (first : Text) (rest : List (Gap × Text)) : Text :=
  shellQuote first ++ rest.flatMap fun (gap, word) => gap.text ++ shellQuote word

def Segment.meant : Segment → Text
  | .literal text => text
  | .placeholder name => reference name

def meantWord (segments : List Segment) : Text :=
  segments.flatMap Segment.meant

/-- A word with each placeholder replaced by its shell variable. -/
def meant (word : Text) : Text :=
  meantWord (splitPlaceholders word)

end Gostman.Curl
