import Mathlib.Data.List.Basic

/-!
# The tokens of SQL text

A lexer for the part of SQL that generated statements use: line comments, string literals between
single quotes and identifiers between double quotes, in which the quote is written twice, words and
single characters. It is a machine over the characters: `step` says which token a character
completes, if any, and what is being read after it.

`lexFrom` is what the rest of a text lexes to from a given mode. The lemmas about it say how a text
that is put together from parts lexes, part by part: a comment line, a quoted name, a fixed text. A
quoted name is one token whatever it contains (`lexFrom_quoted`).

The last section reads a list of tokens as a select list: its items between the commas that are not
within brackets, and the name of the column each of them gives.
-/

namespace Orc.Sql

/-- The character that delimits a string literal. -/
def strQuote : Char := Char.ofNat 39

/-- The character that delimits an identifier. -/
def identQuote : Char := '"'

inductive Token where
  /-- A comment, without its dashes. -/
  | comment (text : String)
  /-- A string literal, without its quotes. -/
  | str (text : String)
  /-- A quoted identifier, without its quotes. -/
  | ident (name : String)
  /-- A keyword, a name that is not quoted, or a number. -/
  | word (text : String)
  | sym (c : Char)
  deriving DecidableEq, Repr

/-- The two kinds of text between quotes. -/
inductive Quoted where
  | str
  | ident
  deriving DecidableEq, Repr

namespace Quoted

def char : Quoted → Char
  | str => strQuote
  | ident => identQuote

def token (q : Quoted) (text : List Char) : Token :=
  match q with
  | str => .str (String.ofList text)
  | ident => .ident (String.ofList text)

end Quoted

/-- What is being read. -/
inductive Mode where
  | plain
  /-- After one dash. -/
  | dash
  | word (text : List Char)
  | comment (text : List Char)
  | quoted (q : Quoted) (text : List Char)
  /-- After a quote that ends the text, unless another one follows. -/
  | closing (q : Quoted) (text : List Char)
  deriving DecidableEq, Repr

def isWordChar (c : Char) : Bool := c.isAlphanum || c == '_'

/-- A line comment ends with its line. -/
def endsLine (c : Char) : Bool := c == '\n' || c == '\r'

/-- A character where a token may begin. -/
def start (c : Char) : Mode × List Token :=
  if c.isWhitespace then (.plain, [])
  else if c = '-' then (.dash, [])
  else if c = strQuote then (.quoted .str [], [])
  else if c = identQuote then (.quoted .ident [], [])
  else if isWordChar c then (.word [c], [])
  else (.plain, [.sym c])

/-- A token is complete, and a character begins the next. -/
def emit (t : Token) (c : Char) : Mode × List Token := ((start c).1, t :: (start c).2)

/-- One character. -/
def step (c : Char) : Mode → Mode × List Token
  | .plain => start c
  | .dash => if c = '-' then (.comment [], []) else emit (.sym '-') c
  | .word text =>
    if isWordChar c then (.word (text ++ [c]), []) else emit (.word (String.ofList text)) c
  | .comment text =>
    if endsLine c then (.plain, [.comment (String.ofList text)]) else (.comment (text ++ [c]), [])
  | .quoted q text =>
    if c = q.char then (.closing q text, []) else (.quoted q (text ++ [c]), [])
  | .closing q text =>
    if c = q.char then (.quoted q (text ++ [c]), []) else emit (q.token text) c

/-- What the end of the text completes; nothing may end between quotes. -/
def finish : Mode → Option (List Token)
  | .plain => some []
  | .dash => some [.sym '-']
  | .word text => some [.word (String.ofList text)]
  | .comment text => some [.comment (String.ofList text)]
  | .quoted _ _ => none
  | .closing q text => some [q.token text]

/-- The tokens of the rest of a text. -/
def lexFrom (m : Mode) : List Char → Option (List Token)
  | [] => finish m
  | c :: cs => (lexFrom (step c m).1 cs).map ((step c m).2 ++ ·)

/-- The tokens of a text. -/
def lex (s : String) : Option (List Token) := lexFrom .plain s.toList

/-! ## Texts in parts -/

/-- The mode a text leaves, and the tokens it completes. -/
def run (m : Mode) : List Char → Mode × List Token
  | [] => (m, [])
  | c :: cs => ((run (step c m).1 cs).1, (step c m).2 ++ (run (step c m).1 cs).2)

/-- No token in front changes nothing. -/
theorem map_nil_append (o : Option (List Token)) : o.map ([] ++ ·) = o := by
  cases o <;> rfl

/-- **A part of a text**, by what it does to the machine. -/
theorem lexFrom_of_run {m m' : Mode} {cs : List Char} {ts : List Token} (h : run m cs = (m', ts))
    (rest : List Char) : lexFrom m (cs ++ rest) = (lexFrom m' rest).map (ts ++ ·) := by
  induction cs generalizing m ts with
  | nil =>
    cases h
    exact (map_nil_append _).symm
  | cons c cs ih =>
    cases h
    rw [List.cons_append, lexFrom, ih rfl, Option.map_map]
    congr 1
    funext ts
    rw [Function.comp_apply, List.append_assoc]

/-- A literal is the list of its characters. Lexed as such it need not be decoded. -/
theorem lexFrom_literal {cs : List Char} {ts : List Token} (h : run .plain cs = (.plain, ts))
    (rest : List Char) :
    lexFrom .plain ((String.ofList cs).toList ++ rest) = (lexFrom .plain rest).map (ts ++ ·) := by
  rw [String.toList_ofList]
  exact lexFrom_of_run h rest

/-- No character of the text ends the line. -/
def OneLine (cs : List Char) : Prop := ∀ c ∈ cs, endsLine c = false

theorem oneLine_of_all {cs : List Char} (h : cs.all (fun c ↦ !endsLine c) = true) : OneLine cs := by
  intro c hc
  exact (Bool.not_eq_true' _).mp (List.all_eq_true.1 h c hc)

theorem OneLine.append {cs ds : List Char} (hcs : OneLine cs) (hds : OneLine ds) :
    OneLine (cs ++ ds) := List.forall_mem_append.2 ⟨hcs, hds⟩

private theorem run_comment (text : List Char) {cs : List Char} (h : OneLine cs) :
    run (.comment text) cs = (.comment (text ++ cs), []) := by
  induction cs generalizing text with
  | nil => rw [run, List.append_nil]
  | cons c cs ih =>
    obtain ⟨hc, hcs⟩ := List.forall_mem_cons.1 h
    rw [run, step, hc, if_neg Bool.false_ne_true, ih _ hcs, List.append_assoc]
    rfl

/-- **A comment line.** -/
theorem lexFrom_comment {cs : List Char} (h : OneLine cs) (rest : List Char) :
    lexFrom .plain ('-' :: '-' :: (cs ++ '\n' :: rest)) =
      (lexFrom .plain rest).map (.comment (String.ofList cs) :: ·) := by
  have hdashes : run .plain ['-', '-'] = (.comment [], []) := by decide
  calc
    lexFrom .plain (['-', '-'] ++ (cs ++ '\n' :: rest))
      = lexFrom (.comment []) (cs ++ '\n' :: rest) := by
        rw [lexFrom_of_run hdashes, map_nil_append]
    _ = lexFrom (.comment cs) ('\n' :: rest) := by
        rw [lexFrom_of_run (run_comment [] h), map_nil_append, List.nil_append]

/-- The text is comments only. -/
def Comments (cs : List Char) : Prop :=
  ∃ texts : List String, ∀ rest,
    lexFrom .plain (cs ++ rest) = (lexFrom .plain rest).map (texts.map .comment ++ ·)

theorem Comments.append {cs ds : List Char} (hcs : Comments cs) (hds : Comments ds) :
    Comments (cs ++ ds) := by
  obtain ⟨texts, hcs⟩ := hcs
  obtain ⟨texts', hds⟩ := hds
  refine ⟨texts ++ texts', fun rest ↦ ?_⟩
  rw [List.append_assoc, hcs, hds, Option.map_map, List.map_append]
  congr 1
  funext ts
  rw [Function.comp_apply, List.append_assoc]

theorem comments_line {cs : List Char} (h : OneLine cs) :
    Comments ('-' :: '-' :: (cs ++ ['\n'])) := by
  refine ⟨[String.ofList cs], fun rest ↦ ?_⟩
  rw [List.cons_append, List.cons_append, List.append_assoc, List.singleton_append,
    lexFrom_comment h]
  rfl

/-- A text with its quotes written twice. -/
def escape (quote : Char) (text : List Char) : List Char :=
  text.flatMap fun c ↦ if c = quote then [c, c] else [c]

private theorem run_escape (q : Quoted) (before text : List Char) :
    run (.quoted q before) (escape q.char text) = (.quoted q (before ++ text), []) := by
  induction text generalizing before with
  | nil => rw [List.append_nil, escape, List.flatMap_nil, run]
  | cons c text ih =>
    have hsplit : before ++ c :: text = (before ++ [c]) ++ text := List.append_cons before c text
    rw [escape, List.flatMap_cons, ← escape, hsplit, ← ih]
    by_cases hc : c = q.char
    · rw [if_pos hc, List.cons_append, List.cons_append, List.nil_append, run, step, if_pos hc, run,
        step, if_pos hc]
      rfl
    · rw [if_neg hc, List.cons_append, List.nil_append, run, step, if_neg hc]
      rfl

/-- **A text between quotes** is one token, whatever it contains, unless a quote follows. -/
theorem lexFrom_quoted (q : Quoted) (text : List Char) {rest : List Char}
    (hrest : rest.head? ≠ some q.char) :
    lexFrom .plain (q.char :: (escape q.char text ++ q.char :: rest)) =
      (lexFrom .plain rest).map (q.token text :: ·) := by
  have hopen : run .plain [q.char] = (.quoted q [], []) := by cases q <;> decide
  calc
    lexFrom .plain ([q.char] ++ (escape q.char text ++ q.char :: rest))
      = lexFrom (.quoted q []) (escape q.char text ++ q.char :: rest) := by
        rw [lexFrom_of_run hopen, map_nil_append]
    _ = lexFrom (.quoted q text) (q.char :: rest) := by
        rw [lexFrom_of_run (run_escape q [] text), map_nil_append, List.nil_append]
    _ = lexFrom (.closing q text) rest := by
        rw [lexFrom, step, if_pos rfl, map_nil_append]
    _ = (lexFrom .plain rest).map (q.token text :: ·) := by
        cases rest with
        | nil => rfl
        | cons c rest =>
          have hc : c ≠ q.char := fun heq ↦ hrest (congrArg some heq)
          rw [lexFrom, step, if_neg hc, lexFrom, Option.map_map]
          rfl

/-! ## Select lists -/

/-- How many brackets a token opens. -/
def opens : Token → ℕ
  | .sym '(' => 1
  | .sym '[' => 1
  | _ => 0

/-- How many brackets a token closes. -/
def closes : Token → ℕ
  | .sym ')' => 1
  | .sym ']' => 1
  | _ => 0

/-- The items of a list: its parts between the commas outside of brackets, when so many brackets are
open and the item read so far is `item`. -/
def itemsFrom (depth : ℕ) (item : List Token) : List Token → List (List Token)
  | [] => [item]
  | t :: ts =>
    if depth = 0 ∧ t = .sym ',' then item :: itemsFrom 0 [] ts
    else itemsFrom (depth + opens t - closes t) (item ++ [t]) ts

/-- The items of a list. -/
def items (ts : List Token) : List (List Token) := itemsFrom 0 [] ts

/-- The name of the column an item gives: that of a column, or the one after `AS`. -/
def outputName (item : List Token) : Option String :=
  match item.getLast? with
  | some (.word text) => some text
  | some (.ident name) => some name
  | _ => none

/-- Brackets are balanced and no comma stands outside of them. -/
def Closed (item : List Token) : Prop :=
  ∀ before rest, itemsFrom 0 before (item ++ rest) = itemsFrom 0 (before ++ item) rest

theorem Closed.items_cons {item : List Token} (h : Closed item) (rest : List Token) :
    items (item ++ .sym ',' :: rest) = item :: items rest := by
  rw [items, h, List.nil_append, itemsFrom, if_pos ⟨rfl, rfl⟩]
  rfl

/-- Items written with a comma after each, and a list after them. -/
theorem intercalate_append {tail : List (List Token)} (hne : tail ≠ []) (l : List (List Token)) :
    [.sym ','].intercalate (l ++ tail) =
      (l.flatMap fun item ↦ item ++ [.sym ',']) ++ [.sym ','].intercalate tail := by
  induction l with
  | nil => rfl
  | cons item l ih =>
    obtain ⟨next, rest, hcons⟩ :=
      List.exists_cons_of_ne_nil (List.append_ne_nil_of_right_ne_nil l hne)
    rw [List.cons_append, hcons, List.intercalate_cons_cons, ← hcons, ih, List.flatMap_cons,
      List.append_assoc, List.append_assoc, List.append_assoc]

/-- **The items of a list** that was put together from items. -/
theorem items_intercalate {l : List (List Token)} (h : ∀ item ∈ l, Closed item) (hne : l ≠ []) :
    items ([.sym ','].intercalate l) = l := by
  induction l with
  | nil => exact absurd rfl hne
  | cons item l ih =>
    rw [List.forall_mem_cons] at h
    cases l with
    | nil =>
      have hlast := h.1 [] []
      rw [List.append_nil, List.nil_append] at hlast
      rw [List.intercalate_singleton, items, hlast]
      rfl
    | cons next l =>
      rw [List.intercalate_cons_cons, List.append_assoc, List.singleton_append, h.1.items_cons,
        ih h.2 (List.cons_ne_nil _ _)]

end Orc.Sql
