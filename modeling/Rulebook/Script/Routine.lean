namespace Rulebook.Script

inductive Global where
  | assert | error | ipairs | next | pairs | pcall | require | select | tonumber | tostring | type
  | warn | xpcall
deriving DecidableEq, Hashable, Repr

def Global.all : List Global :=
  [.assert, .error, .ipairs, .next, .pairs, .pcall, .require, .select, .tonumber, .tostring, .type,
    .warn, .xpcall]

def Global.name : Global → String
  | assert => "assert"
  | error => "error"
  | ipairs => "ipairs"
  | next => "next"
  | pairs => "pairs"
  | pcall => "pcall"
  | require => "require"
  | select => "select"
  | tonumber => "tonumber"
  | tostring => "tostring"
  | type => "type"
  | warn => "warn"
  | xpcall => "xpcall"

inductive TextRoutine where
  | byte | char | find | format | gmatch | gsub | len | lower | captures | pack | packsize | rep
  | reverse | sub | unpack | upper
deriving DecidableEq, Hashable, Repr

def TextRoutine.all : List TextRoutine :=
  [.byte, .char, .find, .format, .gmatch, .gsub, .len, .lower, .captures, .pack, .packsize, .rep,
    .reverse, .sub, .unpack, .upper]

def TextRoutine.name : TextRoutine → String
  | byte => "byte"
  | char => "char"
  | find => "find"
  | format => "format"
  | gmatch => "gmatch"
  | gsub => "gsub"
  | len => "len"
  | lower => "lower"
  | captures => "match"
  | pack => "pack"
  | packsize => "packsize"
  | rep => "rep"
  | reverse => "reverse"
  | sub => "sub"
  | unpack => "unpack"
  | upper => "upper"

inductive NumberRoutine where
  | abs | acos | asin | atan | ceil | cos | cosh | deg | exp | floor | fmod | frexp | ldexp | log
  | log10 | max | min | modf | pow | rad | random | randomseed | sin | sinh | sqrt | tan | tanh
  | tointeger | type | ult
deriving DecidableEq, Hashable, Repr

def NumberRoutine.all : List NumberRoutine :=
  [.abs, .acos, .asin, .atan, .ceil, .cos, .cosh, .deg, .exp, .floor, .fmod, .frexp, .ldexp, .log,
    .log10, .max, .min, .modf, .pow, .rad, .random, .randomseed, .sin, .sinh, .sqrt, .tan, .tanh,
    .tointeger, .type, .ult]

def NumberRoutine.name : NumberRoutine → String
  | abs => "abs"
  | acos => "acos"
  | asin => "asin"
  | atan => "atan"
  | ceil => "ceil"
  | cos => "cos"
  | cosh => "cosh"
  | deg => "deg"
  | exp => "exp"
  | floor => "floor"
  | fmod => "fmod"
  | frexp => "frexp"
  | ldexp => "ldexp"
  | log => "log"
  | log10 => "log10"
  | max => "max"
  | min => "min"
  | modf => "modf"
  | pow => "pow"
  | rad => "rad"
  | random => "random"
  | randomseed => "randomseed"
  | sin => "sin"
  | sinh => "sinh"
  | sqrt => "sqrt"
  | tan => "tan"
  | tanh => "tanh"
  | tointeger => "tointeger"
  | type => "type"
  | ult => "ult"

inductive TableRoutine where
  | concat | insert | move | pack | remove | sort | unpack
deriving DecidableEq, Hashable, Repr

def TableRoutine.all : List TableRoutine :=
  [.concat, .insert, .move, .pack, .remove, .sort, .unpack]

def TableRoutine.name : TableRoutine → String
  | concat => "concat"
  | insert => "insert"
  | move => "move"
  | pack => "pack"
  | remove => "remove"
  | sort => "sort"
  | unpack => "unpack"

inductive CodeRoutine where
  | char | codepoint | codes | len | offset
deriving DecidableEq, Hashable, Repr

def CodeRoutine.all : List CodeRoutine := [.char, .codepoint, .codes, .len, .offset]

def CodeRoutine.name : CodeRoutine → String
  | char => "char"
  | codepoint => "codepoint"
  | codes => "codes"
  | len => "len"
  | offset => "offset"

inductive RuleRoutine where
  | contains | count | lookup | clamp | log
deriving DecidableEq, Hashable, Repr

def RuleRoutine.all : List RuleRoutine := [.contains, .count, .lookup, .clamp, .log]

def RuleRoutine.name : RuleRoutine → String
  | contains => "contains"
  | count => "count"
  | lookup => "lookup"
  | clamp => "clamp"
  | log => "log"

inductive Routine where
  | global (r : Global)
  | text (r : TextRoutine)
  | number (r : NumberRoutine)
  | table (r : TableRoutine)
  | code (r : CodeRoutine)
  | rule (r : RuleRoutine)
  /-- the step of a walk over the items of a list -/
  | nextItem
  /-- the step of a walk over the code points of a text -/
  | nextCode (lax : Bool)
deriving DecidableEq, Hashable, Repr

def Routine.name : Routine → String
  | global r => r.name
  | text r => r.name
  | number r => r.name
  | table r => r.name
  | code r => r.name
  | rule r => r.name
  | nextItem => "for iterator"
  | nextCode _ => "for iterator"

end Rulebook.Script
