import Mathlib.Logic.Function.Basic
import Os20.Lib.Words

/-!
# The command line of ssu_shell

What `main` of `ssu_shell.c` does with one line: `tokenize` cuts it at white space, the
pipe tokens are overwritten with `NULL` and their indices queued, and one child per
queued index takes its argument vector from the token array.

A token is the list of its characters.  `tokens` is the array up to and including the
`NULL` behind the last token, with `none` for `NULL`; what lies behind was never
written.  Writing outside an array ends the parse with a `Fault`, and so does
comparing a `NULL` command in a child, in that child alone.  The child replaces `pps`
and `ttop` by their paths after it has its vector; that is not part of the parse.
-/

namespace Os20.Shell

open Lib.Words

abbrev Token := List Char

def maxTokenSize : Nat := 64

def maxNumTokens : Nat := 64

inductive Fault where
  /-- a write outside an array -/
  | overrun
  /-- `strcmp` of a `NULL` pointer -/
  | null
  deriving DecidableEq, Repr

/-! ## tokenize -/

/-- The locals of `tokenize`: the tokens stored so far and the one being read. -/
structure Scan where
  tokens : List Token
  token : Token
  deriving DecidableEq, Repr

/-- One character of the loop in `tokenize`. -/
def Scan.read (s : Scan) (readChar : Char) : Except Fault Scan :=
  if maxTokenSize ≤ s.token.length then .error .overrun
  else if readChar = ' ' ∨ readChar = '\n' ∨ readChar = '\t' then
    if s.token.length ≠ 0 then
      if maxNumTokens ≤ s.tokens.length then .error .overrun
      else .ok { tokens := s.tokens ++ [s.token], token := [] }
    else .ok s
  else .ok { s with token := s.token ++ [readChar] }

def tokenize (line : List Char) : Except Fault (List (Option Token)) := do
  let s ← line.foldlM Scan.read { tokens := [], token := [] }
  if maxNumTokens ≤ s.tokens.length then .error .overrun
  else .ok (s.tokens.map some ++ [none])

/-! ## queue_t -/

structure Queue where
  front : Nat
  rear : Nat
  body : Nat → Int

def queueSize : Nat := 128

def queueNew : Queue where
  front := 0
  rear := 0
  body := fun _ => 0

def queuePush (this : Queue) (elem : Int) : Except Fault Queue :=
  if this.rear < queueSize then
    .ok { this with rear := this.rear + 1, body := Function.update this.body this.rear elem }
  else .error .overrun

def queueFront (this : Queue) : Int := this.body this.front

def queueEmpty (this : Queue) : Bool := this.rear == this.front

def queuePop (this : Queue) : Bool × Queue :=
  if this.front = this.rear then (false, this)
  else (true, { this with
    front := this.front + 1, body := Function.update this.body this.front 0 })

def queueLength (this : Queue) : Int := this.rear - this.front

/-! ## main -/

/-- The test `tokens[pipe_idx][0] != '|'`, the other way round. -/
def isPipe (token : Token) : Bool := token.head? == some '|'

/-- The loop over `pipe_idx`.  It stops at the first `NULL`, and an entry it overwrites
is behind it by then. -/
def replacePipes : Nat → Nat → List (Option Token) → Queue →
    Except Fault (List (Option Token) × Queue)
  | 0, _, _, _ => .error .overrun
  | fuel + 1, pipeIdx, tokens, pipeQueue =>
    match tokens[pipeIdx]? with
    | none => .error .overrun
    | some none => .ok (tokens, pipeQueue)
    | some (some token) =>
      if isPipe token then do
        let pipeQueue ← queuePush pipeQueue pipeIdx
        replacePipes fuel (pipeIdx + 1) (tokens.set pipeIdx none) pipeQueue
      else replacePipes fuel (pipeIdx + 1) tokens pipeQueue

/-- The vector at `tokens + k`: the words before the next `NULL`. -/
def argv (tokens : List (Option Token)) (k : Nat) : List Token :=
  ((tokens.drop k).takeWhile Option.isSome).filterMap id

/-- A child compares its command with the own programs and passes the vector on to
`execvp`. -/
def child (tokens : List (Option Token)) (divIndex : Int) : Except Fault (List Token) :=
  match argv tokens (divIndex + 1).toNat with
  | [] => .error .null
  | command :: args => .ok (command :: args)

/-- The loop that forks one child for each queued index. -/
def launch (tokens : List (Option Token)) : Nat → Queue → List (Except Fault (List Token))
  | 0, _ => []
  | fuel + 1, pipeQueue =>
    if queueEmpty pipeQueue then []
    else child tokens (queueFront pipeQueue) :: launch tokens fuel (queuePop pipeQueue).2

/-- The children of one line, each with the vector it comes to or the fault that ends it. -/
def children (line : List Char) : Except Fault (List (Except Fault (List Token))) := do
  let tokens ← tokenize (line ++ ['\n'])
  let pipeQueue ←
    if tokens.head? = some none then pure queueNew else queuePush queueNew (-1)
  let (tokens, pipeQueue) ← replacePipes tokens.length 0 tokens pipeQueue
  let cmdLength := queueLength pipeQueue
  return launch tokens cmdLength.toNat pipeQueue

/-- The argument vectors handed to `execvp`, in the order of the commands. -/
def argVectors (line : List Char) : Except Fault (List (List Token)) := do
  return (← children line).filterMap Except.toOption

/-! ## The commands of a line -/

def isBlank (c : Char) : Bool := c == ' ' || c == '\t'

/-- A line cut at every `|`, and each part into its words. -/
def commands (line : List Char) : List (List Token) :=
  (line.splitOn '|').map (words isBlank)

end Os20.Shell
