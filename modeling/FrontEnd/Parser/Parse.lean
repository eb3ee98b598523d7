import FrontEnd.Parser.Basic

/-!
Parsing steps. A step moves a parser on and may fail to build its value; a failed step still moves the parser and leaves
its diagnostics behind.
-/

namespace FrontEnd

def Parse (α : Type) : Type :=
  Parser → Option α × Parser

namespace Parse

variable {α β σ : Type}

@[inline] def pure (a : α) : Parse α :=
  fun p => (some a, p)

@[inline] def fail : Parse α :=
  fun p => (none, p)

/-- What follows a failed step is not run. -/
@[inline] def bind (x : Parse α) (f : α → Parse β) : Parse β :=
  fun p =>
    match x p with
    | (some a, q) => f a q
    | (none, q) => (none, q)

instance : Monad Parse where
  pure := pure
  bind := bind

theorem bind_apply (x : Parse α) (f : α → Parse β) (p : Parser) :
    (x >>= f) p = match x p with
      | (some a, q) => f a q
      | (none, q) => (none, q) := rfl

/-- Goes on behind a failure, with no value in hand. -/
@[inline] def attempt (x : Parse α) : Parse (Option α) :=
  fun p =>
    match x p with
    | (a, q) => (some a, q)

/-- Fails where there is no value. -/
@[inline] def ofOption (a : Option α) : Parse α :=
  fun p => (a, p)

@[inline] def view (f : Parser → α) : Parse α :=
  fun p => (some (f p), p)

@[inline] def modify (f : Parser → Parser) : Parse Unit :=
  fun p => (some (), f p)

/-- Fails where the answer is no. -/
@[inline] def require (f : Parser → Bool × Parser) : Parse Unit :=
  fun p =>
    match f p with
    | (true, q) => (some (), q)
    | (false, q) => (none, q)

def current : Parse Token :=
  view Parser.current

def currentIs (kind : Kind) : Parse Bool :=
  view fun p => p.current.kind == kind

def peekIs (kind : Kind) : Parse Bool :=
  view fun p => p.peek.kind == kind

def advance : Parse Unit :=
  modify Parser.advance

def report (d : Diagnostic) : Parse Unit :=
  modify (Parser.report d)

def expect (kind : Kind) : Parse Unit :=
  require (Parser.expect kind)

def descend : Parse Unit :=
  require Parser.descend

/-- Goes back to the level where the step began, whether it fails or not. -/
@[inline] def nested (x : Parse α) : Parse α :=
  fun p =>
    let depth := p.depth
    match x p with
    | (a, q) => (a, q.unwind depth)

/-- Repeats the step at most so often, for as long as `more` holds and the step succeeds. -/
@[specialize] def repeatWithin (more : Parser → Bool) (step : σ → Parse σ) : Nat → σ → Parse σ
  | 0, s, p => (some s, p)
  | n + 1, s, p =>
    if more p then
      match step s p with
      | (some s, q) => repeatWithin more step n s q
      | (none, q) => (none, q)
    else (some s, p)

/-- Repeats a step that takes at least one token each time. -/
@[inline] def repeatWhile (more : Parser → Bool) (step : σ → Parse σ) (s : σ) : Parse σ :=
  fun p => repeatWithin more step p.left s p

end Parse

end FrontEnd
