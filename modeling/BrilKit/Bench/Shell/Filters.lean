import BrilKit.Data.Decimal
import BrilKit.Data.Members

/-!
# Filters

Commands that turn an input text into an output text: counting, changing characters, sorting.
-/

namespace BrilKit

namespace Shell

/-- The lines of a text, without their ends; what is behind the last end is a line if it is not
empty. -/
def linesOf (text : String) : List String :=
  match (text.splitOn "\n").reverse with
  | "" :: ls => ls.reverse
  | ls => ls.reverse

def unlines (ls : List String) : String := String.join (ls.map (· ++ "\n"))

def wordsOf (text : String) : List String :=
  let isBlank (c : Char) : Bool := c = ' ' || ('\t' ≤ c && c ≤ '\r')
  ((text.map fun c => if isBlank c then ' ' else c).splitOn " ").filter fun w => w ≠ ""

def splitOptions (args : List String) : List Char × List String :=
  let isOption (a : String) : Bool := decide (1 < a.length) && a.toList.head? == some '-'
  ((args.filter isOption).flatMap fun a => a.toList.drop 1, args.filter fun a => !isOption a)

def padded (n : Nat) : String :=
  let t := toString n
  String.ofList (List.replicate (7 - t.length) ' ') ++ t

def count (options : List Char) (input : String) : String :=
  let options := if options.isEmpty then ['l', 'w', 'c'] else options
  let lineCount := (input.toList.filter fun c => c = '\n').length
  let numbers := (if options.contains 'l' then [lineCount] else [])
    ++ (if options.contains 'w' then [(wordsOf input).length] else [])
    ++ (if options.contains 'm' then [input.length] else [])
    ++ (if options.contains 'c' then [input.utf8ByteSize] else [])
  match numbers with
  | [n] => toString n ++ "\n"
  | ns => " ".intercalate (ns.map padded) ++ "\n"

def rangeOf (a b : Char) : List Char :=
  (List.range (b.toNat + 1 - a.toNat)).map fun k => Char.ofNat (a.toNat + k)

def classNamed : String → Option (List Char)
  | "upper" => some (rangeOf 'A' 'Z')
  | "lower" => some (rangeOf 'a' 'z')
  | "alpha" => some (rangeOf 'A' 'Z' ++ rangeOf 'a' 'z')
  | "digit" => some (rangeOf '0' '9')
  | "alnum" => some (rangeOf '0' '9' ++ rangeOf 'A' 'Z' ++ rangeOf 'a' 'z')
  | "space" => some (rangeOf '\t' '\r' ++ [' '])
  | "blank" => some ['\t', ' ']
  | "punct" =>
    some ((rangeOf '!' '~').filter fun c => !c.isAlphanum)
  | _ => none

def unescaped (c : Char) : Char :=
  match c with
  | 'n' => '\n'
  | 't' => '\t'
  | 'r' => '\r'
  | c => c

def setFrom : Nat → List Char → List Char
  | 0, _ => []
  | _ + 1, [] => []
  | fuel + 1, '[' :: ':' :: cs =>
    let (name, rest) := cs.span fun c => c ≠ ':'
    match classNamed (String.ofList name), rest with
    | some set, ':' :: ']' :: rest => set ++ setFrom fuel rest
    | _, _ => '[' :: setFrom fuel (':' :: cs)
  | fuel + 1, '\\' :: c :: cs => unescaped c :: setFrom fuel cs
  | fuel + 1, a :: '-' :: b :: cs => rangeOf a b ++ setFrom fuel cs
  | fuel + 1, c :: cs => c :: setFrom fuel cs

def setOf (s : String) : List Char := setFrom (s.length + 1) s.toList

def squeeze (set : List Char) : List Char → List Char
  | a :: b :: cs =>
    if a = b && set.contains a then squeeze set (b :: cs) else a :: squeeze set (b :: cs)
  | cs => cs

/-- The character at the same position in another set, whose last one stands for all behind. -/
def exchange (source target : List Char) (c : Char) : Char :=
  match source.idxOf? c with
  | some k => (target[k]?).getD (target.getLast?.getD c)
  | none => c

def changeChars (options : List Char) (sets : List String) (input : String) : String :=
  let first := setOf (sets.headD "")
  let within (c : Char) : Bool := first.contains c != options.contains 'c'
  let cs := input.toList
  match sets[1]? with
  | none =>
    if options.contains 'd' then String.ofList (cs.filter fun c => !within c)
    else String.ofList (squeeze (cs.filter within) cs)
  | some second =>
    let target := setOf second
    let change (c : Char) : Char :=
      if options.contains 'c' then (if within c then target.getLast?.getD c else c)
      else exchange first target c
    let out := cs.map change
    String.ofList (if options.contains 's' then squeeze target out else out)

def leadingNumber (l : String) : Int :=
  let cs := l.toList.dropWhile fun c => c = ' ' || c = '\t'
  let (negative, cs) :=
    match cs with
    | '-' :: r => (true, r)
    | r => (false, r)
  let (whole, rest) := cs.span Char.isDigit
  let part :=
    match rest with
    | '.' :: r => (r.takeWhile Char.isDigit ++ ['0', '0', '0']).take 3
    | _ => ['0', '0', '0']
  let n : Int := Decimal.digitsValue (whole ++ part)
  if negative then -n else n

def sortLines (options : List Char) (input : String) : String :=
  let before (a b : String) : Bool :=
    if options.contains 'n' && leadingNumber a != leadingNumber b then
      decide (leadingNumber a < leadingNumber b)
    else decide (a ≤ b)
  let same (a b : String) : Bool :=
    if options.contains 'n' then leadingNumber a == leadingNumber b else a == b
  let sorted := (linesOf input).mergeSort before
  let sorted := if options.contains 'r' then sorted.reverse else sorted
  let unique := sorted.foldr (fun l ls =>
    match ls with
    | m :: rest => if same l m then l :: rest else l :: m :: rest
    | [] => [l]) []
  unlines (if options.contains 'u' then unique else sorted)

def echoText : List Char → List Char
  | '\\' :: 'n' :: cs => '\n' :: echoText cs
  | '\\' :: 't' :: cs => '\t' :: echoText cs
  | '\\' :: 'r' :: cs => '\r' :: echoText cs
  | '\\' :: '\\' :: cs => '\\' :: echoText cs
  | c :: cs => c :: echoText cs
  | [] => []

def echo (words : List String) : String :=
  match words with
  | "-n" :: ws => String.ofList (echoText (" ".intercalate ws).toList)
  | ws => String.ofList (echoText (" ".intercalate ws).toList) ++ "\n"

def milliseconds (seconds : String) : Nat := (leadingNumber seconds).toNat

end Shell

end BrilKit
