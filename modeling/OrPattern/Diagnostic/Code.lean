namespace OrPattern

/-- The code of an error. Codes that begin with `E3` are about patterns, those
    that begin with `E9` about the compiler itself. -/
inductive ErrorCode where
  /-- The alternatives of an or-pattern differ in names, paths or shapes. -/
  | e3001
  /-- The types of a name have no type above all. -/
  | e3002
  /-- An ascription goes against another alternative or its own place. -/
  | e3003
  /-- A pattern describes no value of the scrutinee's type. -/
  | e3004
  /-- Two phases contradict each other. -/
  | e9001
deriving DecidableEq, Repr

namespace ErrorCode

/-- Every code, in the order of the numbers. -/
def all : List ErrorCode := [e3001, e3002, e3003, e3004, e9001]

def text : ErrorCode → String
  | e3001 => "E3001"
  | e3002 => "E3002"
  | e3003 => "E3003"
  | e3004 => "E3004"
  | e9001 => "E9001"

/-- A summary in one line. -/
def description : ErrorCode → String
  | e3001 => "or-pattern alternatives differ in shape"
  | e3002 => "incompatible binding types across alternatives"
  | e3003 => "conflicting type ascription in or-pattern"
  | e3004 => "pattern does not fit the scrutinee type"
  | e9001 => "internal consistency fault in pattern compilation"

def ofText? (text : String) : Option ErrorCode :=
  all.find? fun code => code.text == text

/-- Every code can be told by its text. -/
theorem ofText?_text (code : ErrorCode) : ofText? code.text = some code := by
  cases code <;> decide

def isPatternError : ErrorCode → Bool
  | e9001 => false
  | _ => true

def isInternalError : ErrorCode → Bool
  | e9001 => true
  | _ => false

end ErrorCode

end OrPattern
