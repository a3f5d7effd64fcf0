import Novino.Yash.Execute

/-! Parsing a command line (`apps/yash/parse.c`) into tables of fixed size. -/

namespace Novino.Yash

inductive Redirect
  | out | append | input
  deriving DecidableEq, Repr

inductive Special
  | sep (s : Sep)
  | redirect (r : Redirect)
  deriving DecidableEq, Repr

def validateSpecial : List Char → Option Special
  | ['&'] => some (.sep .background)
  | ['&', '&'] => some (.sep .andThen)
  | ['|'] => some (.sep .pipe)
  | ['|', '|'] => some (.sep .orElse)
  | [';'] => some (.sep .seq)
  | ['>'] => some (.redirect .out)
  | ['>', '>'] => some (.redirect .append)
  | ['<'] => some (.redirect .input)
  | _ => none

def isspace (c : Char) : Bool := 0x09 ≤ c.toNat && c.toNat ≤ 0x0D || c == ' '

def isSpecial (c : Char) : Bool := ['&', '|', ';', '>', '<'].contains c

/-- The flags that the inner loop changes: `special` is 1 before and 2 inside an operator. -/
structure Flags where
  special : Nat := 0
  escape : Bool := false
  quote : Option Char := none
  deriving DecidableEq, Repr

/-- The inner loop, which adds to the token up to its end. The last component is what is left of the line. -/
def scan : Flags → List Char → List Char → Flags × List Char × List Char
  | f, tok, [] => (f, tok, [])
  | f, tok, c :: str =>
    if isspace c && f.quote.isNone && !f.escape then (f, tok, c :: str)
    else if c == '\\' && !f.escape then scan { f with escape := true } tok str
    else if isSpecial c && !f.escape && f.quote.isNone then
      if f.special = 0 then ({ f with special := 1 }, tok, c :: str)
      else scan { f with special := 2 } (tok ++ [c]) str
    else if f.special ≠ 0 then (f, tok, c :: str)
    else if (c == '"' || c == '\'') && !f.escape then
      -- a quote of the other kind inside quotes is dropped
      match f.quote with
      | some q => scan { f with quote := if q = c then none else some q } tok str
      | none => scan { f with quote := some c } tok str
    else scan { f with escape := false } (tok ++ [c]) str

/-- The tables: the finished commands of `args`, the present one, the bytes used in `strbuf`, whether all stores so far
were inside, and whether -1 is returned. -/
structure Parser where
  cmds : List Args := []
  cmd : Args := {}
  expect : Option Redirect := none
  buf : Nat := 0
  inside : Bool := true
  failed : Bool := false
  deriving DecidableEq, Repr

namespace Parser

def fail (p : Parser) : Parser := { p with failed := true }

def word (p : Parser) (tok : List Char) : Parser :=
  let p := { p with buf := p.buf + tok.length + 1 }
  match p.expect with
  | some .input => if p.cmd.ifn.isSome then p.fail else { p with cmd := { p.cmd with ifn := some tok }, expect := none }
  | some r =>
    if p.cmd.ofn.isSome then p.fail
    else { p with cmd := { p.cmd with ofn := some (tok, if r = .out then .write else .append) }, expect := none }
  | none => { p with cmd := { p.cmd with argv := p.cmd.argv ++ [tok] }, inside := p.inside && p.cmd.argv.length < 32 }

def token (p : Parser) (f : Flags) (tok : List Char) : Parser × Flags :=
  if tok = [] then (p, f)
  else
    let p := { p with inside := p.inside && p.buf + tok.length < 256 }
    if f.special = 2 then
      match validateSpecial tok with
      | none => (p.fail, f)
      | some (.redirect r) => ({ p with expect := some r, buf := p.buf + tok.length }, { f with special := 0 })
      | some (.sep s) =>
        if p.cmd.argv = [] then (p.fail, f)
        else
          ({ p with
              cmds := p.cmds ++ [{ p.cmd with sep := s }], cmd := {}
              inside := p.inside && p.cmds.length + 1 < 32 },
            { f with special := 0 })
    else (p.word tok, f)

/-- The outer loop. Each round takes a character or comes to an operator. -/
def loop : Nat → Parser → Flags → List Char → Parser × Flags
  | 0, p, f, _ => (p.fail, f)
  | fuel + 1, p, f, str =>
    match str.dropWhile isspace with
    | [] => (p, f)
    | c :: str =>
      match scan f [] (c :: str) with
      | (f, tok, str) =>
        match p.token f tok with
        | (p, f) => if p.failed then (p, f) else loop fuel p f str

end Parser

/-- The last loop: a pipe has no output file before it and no input file behind it, and the list ends in a command. -/
def checks : Option Args → List Args → Bool
  | _, [] => true
  | prev, c :: rest =>
    (c.sep ≠ .pipe || c.ofn.isNone && prev.all (·.ofn.isNone) && rest.head?.all (·.ifn.isNone)) &&
      (rest ≠ [] || c.sep = .background || c.sep = .seq) && checks (some c) rest

def parse (str : List Char) : Parser × Flags := Parser.loop (2 * str.length + 1) {} {} str

def parseCmdline (str : List Char) : Option (List Args) :=
  match parse str with
  | (p, f) =>
    if p.failed || f.quote.isSome || f.escape || p.expect.isSome then none
    else
      let cmds := if p.cmd.argv = [] then p.cmds else p.cmds ++ [p.cmd]
      if checks none cmds then some cmds else none

example : parseCmdline "a 'b c' > f ; d".toList =
    some [{ argv := [['a'], ['b', ' ', 'c']], ofn := some (['f'], .write) }, { argv := [['d']] }] := by decide +kernel

end Novino.Yash
