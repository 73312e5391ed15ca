import Messasy.Lib.Bytes

/-!
# The words of a shell command

How a POSIX shell cuts the text of a command into words and operators (`tokens`), and what a word
comes to as an argument (`argument`): a token keeps its quotes, and `argument` removes them. A
`Scan` is the state behind the text read so far; every byte is one `Action` on it.

Between two words (`Scan.Between`) a text is read as from the start (`tokens_append`), and a
`Literal` before a delimiter is a word that is its own argument.

Aliases are left out, and here-documents, which begin on a second line.
-/

namespace Lib.Shell

def BACKSLASH : Byte := 92

def SQUOTE : Byte := 39

def DQUOTE : Byte := 34

def BACKQUOTE : Byte := 96

def DOLLAR : Byte := ch '$'

/-- The bytes that start an operator. -/
def isMeta (c : Byte) : Bool := (bytes "|&;<>()").contains c

/-- The operators of more than one byte. -/
def operators : List Str :=
  ["&&", "||", ";;", "<<", ">>", "<&", ">&", "<>", "<<-", ">|"].map bytes

inductive Token
  | word (raw : Str)
  /-- Digits right before a redirection. -/
  | ioNumber (raw : Str)
  | operator (raw : Str)
  deriving DecidableEq

def Token.raw : Token → Str
  | .word raw => raw
  | .ioNumber raw => raw
  | .operator raw => raw

/-- A quotation or an expansion that is open. What it encloses belongs to the word. -/
inductive Mode
  | single
  | double
  | backquote
  | brace
  | paren
  deriving DecidableEq

/-- What is under way. -/
inductive Pending
  | between
  | word (raw : Str)
  | operator (raw : Str)
  | comment
  deriving DecidableEq

/-- What the byte opens. -/
def opens (dollar : Bool) (c : Byte) : List Mode :=
  if c = SQUOTE then [.single]
  else if c = DQUOTE then [.double]
  else if c = BACKQUOTE then [.backquote]
  else if dollar = true ∧ c = ch '(' then [.paren]
  else if dollar = true ∧ c = ch '{' then [.brace]
  else []

/-- What stays open behind the byte, and what it opens. -/
def Mode.next (dollar : Bool) (c : Byte) : Mode → List Mode
  | .single => if c = SQUOTE then [] else [.single]
  | .double =>
    if c = DQUOTE then [] else if c = SQUOTE then [.double] else opens dollar c ++ [.double]
  | .backquote => if c = BACKQUOTE then [] else [.backquote]
  | .brace => if c = ch '}' then [] else opens dollar c ++ [.brace]
  | .paren =>
    if c = ch ')' then []
    else if c = ch '(' then [.paren, .paren]
    else opens dollar c ++ [.paren]

/-- The reader: what is open, innermost first, and whether the byte before is a backslash or a
dollar sign. -/
structure Scan where
  tokens : List Token
  pending : Pending
  modes : List Mode
  escaped : Bool
  dollar : Bool
  deriving DecidableEq

/-- What a byte does. -/
inductive Action
  /-- The text belongs to the word under way, or starts one. -/
  | text (text : Str) (modes : List Mode) (dollar : Bool)
  | escape
  /-- A backslash and a line feed are no text. -/
  | join
  | space
  | lineEnd
  | comment
  | skip
  | operator
  /-- The operator under way goes on. -/
  | extend
  deriving DecidableEq

def Pending.isWord : Pending → Bool
  | .word _ => true
  | _ => false

def Pending.extends (c : Byte) : Pending → Bool
  | .operator raw => operators.contains (raw ++ [c])
  | _ => false

/-- The token that is over at the byte. -/
def Pending.closed (c : Byte) : Pending → List Token
  | .word raw =>
    if raw.all isdigit ∧ (c = ch '<' ∨ c = ch '>') then [.ioNumber raw] else [.word raw]
  | .operator raw => [.operator raw]
  | _ => []

namespace Scan

def start : Scan := ⟨[], .between, [], false, false⟩

def action (s : Scan) (c : Byte) : Action :=
  if s.escaped then
    if c = LF then .join else .text [BACKSLASH, c] s.modes false
  else match s.modes with
    | m :: modes =>
      if c = BACKSLASH ∧ m ≠ .single then .escape
      else .text [c] (m.next s.dollar c ++ modes) (c = DOLLAR ∧ m ≠ .single)
    | [] =>
      if s.pending = .comment ∧ c ≠ LF then .skip
      else if c = LF then .lineEnd
      else if c = BACKSLASH then .escape
      else if isblank c then .space
      else if s.pending.extends c then .extend
      else if isMeta c ∧ ¬ (s.dollar = true ∧ c = ch '(') then .operator
      else if c = ch '#' ∧ ¬ s.pending.isWord then .comment
      else .text [c] (opens s.dollar c) (c = DOLLAR)

def perform (s : Scan) (c : Byte) : Action → Scan
  | .text text modes dollar =>
    match s.pending with
    | .word raw => ⟨s.tokens, .word (raw ++ text), modes, false, dollar⟩
    | pending => ⟨s.tokens ++ pending.closed c, .word text, modes, false, dollar⟩
  | .escape => { s with escaped := true }
  | .join => { s with escaped := false }
  | .space => ⟨s.tokens ++ s.pending.closed c, .between, [], false, false⟩
  | .lineEnd => ⟨s.tokens ++ s.pending.closed c ++ [.operator [c]], .between, [], false, false⟩
  | .comment => ⟨s.tokens ++ s.pending.closed c, .comment, [], false, false⟩
  | .skip => s
  | .operator => ⟨s.tokens ++ s.pending.closed c, .operator [c], [], false, false⟩
  | .extend =>
    match s.pending with
    | .operator raw => { s with pending := .operator (raw ++ [c]) }
    | _ => s

def step (s : Scan) (c : Byte) : Scan := s.perform c (s.action c)

def run (s : Scan) (text : Str) : Scan := text.foldl step s

/-- The tokens of a text that ends here. -/
def finish (s : Scan) : List Token :=
  let s := if s.escaped then s.perform LF (.text [BACKSLASH] s.modes false) else s
  s.tokens ++ s.pending.closed LF

end Scan

/-- The words and operators of a text. -/
def tokens (text : Str) : List Token := (Scan.start.run text).finish

example : tokens (bytes "a 2>>b; c'|'d #e") = [.word (bytes "a"), .ioNumber (bytes "2"),
    .operator (bytes ">>"), .word (bytes "b"), .operator (bytes ";"), .word (bytes "c'|'d")] := by
  decide

/-! ## Arguments -/

/-- Where in a word a byte stands. -/
inductive Quoting
  | plain
  | escaped
  | single
  | double
  | doubleEscaped
  deriving DecidableEq

/-- The bytes that start an expansion. -/
def substitutes (c : Byte) : Bool := c == DOLLAR || c == BACKQUOTE

/-- Text behind quote removal, with whether each byte stood there without quotes. -/
abbrev Marked := List (Byte × Bool)

/-- Text without quotes. -/
def bare (a : Str) : Marked := a.map fun c => (c, true)

/-- Quote removal. A word with an expansion has no result here, and one whose quotes are open. -/
def unquote : Quoting → Str → Option Marked
  | .plain, [] => some []
  | _, [] => none
  | .plain, c :: word =>
    if c = BACKSLASH then unquote .escaped word
    else if c = SQUOTE then unquote .single word
    else if c = DQUOTE then unquote .double word
    else if substitutes c then none
    else (unquote .plain word).map ((c, true) :: ·)
  | .escaped, c :: word => (unquote .plain word).map ((c, false) :: ·)
  | .single, c :: word =>
    if c = SQUOTE then unquote .plain word else (unquote .single word).map ((c, false) :: ·)
  | .double, c :: word =>
    if c = DQUOTE then unquote .plain word
    else if c = BACKSLASH then unquote .doubleEscaped word
    else if substitutes c then none
    else (unquote .double word).map ((c, false) :: ·)
  | .doubleEscaped, c :: word =>
    if substitutes c ∨ c = DQUOTE ∨ c = BACKSLASH then
      (unquote .double word).map ((c, false) :: ·)
    else (unquote .double word).map ([(BACKSLASH, false), (c, false)] ++ ·)

/-- An unquoted `]` comes before any slash: slashes part a pattern before its brackets do. -/
def closes : Marked → Bool
  | [] => false
  | (c, b) :: rest => c != ch '/' && (b && c == ch ']' || closes rest)

/-- The text behind a `[` makes a bracket expression with it. The first byte of the list, behind a
`!`, does not end it; a `^` there, whose meaning is unspecified, counts as a byte of the list. A class
such as `[:digit:]` in the list needs no case of its own: its `]` ends an expression that its own `[`
begins. -/
def bracket (behind : Marked) : Bool :=
  match if behind.head? = some (ch '!', true) then behind.tail else behind with
  | [] => false
  | (c, _) :: rest => c != ch '/' && closes rest

/-- The text is a pattern of file names. -/
def globs : Marked → Bool
  | [] => false
  | (c, b) :: rest =>
    b && (c == ch '*' || c == ch '?' || c == ch '[' && bracket rest) || globs rest

/-- What the word comes to as an argument. A word that is expanded has no result here: what a
pattern comes to depends on the files that there are. -/
def argument (raw : Str) : Option Str :=
  if raw.head? = some (ch '~') then none
  else (unquote .plain raw).bind fun marked =>
    if globs marked then none else some (marked.map Prod.fst)

/-- The bytes that a word cannot have as they are. -/
def special (c : Byte) : Bool :=
  c == LF || isblank c || isMeta c || c == BACKSLASH || c == SQUOTE || c == DQUOTE || substitutes c

/-- A word in which every byte stands for itself. -/
structure Literal (a : Str) : Prop where
  plain : ∀ c ∈ a, special c = false
  comment : a.head? ≠ some (ch '#')
  tilde : a.head? ≠ some (ch '~')
  pattern : globs (bare a) = false

instance (a : Str) : Decidable (Literal a) :=
  decidable_of_iff (a.all (!special ·) ∧ a.head? ≠ some (ch '#') ∧ a.head? ≠ some (ch '~') ∧
      globs (bare a) = false) <| by
    have hall : a.all (!special ·) = true ↔ ∀ c ∈ a, special c = false := by
      simp [List.all_eq_true]
    rw [hall]
    exact ⟨fun h => ⟨h.1, h.2.1, h.2.2.1, h.2.2.2⟩,
      fun h => ⟨h.plain, h.comment, h.tilde, h.pattern⟩⟩

example : ["a[b@x", "a[]@x", "a]b[c/d]@x", "a[b]@x", "a[!]]@x", "a[[:b]@x"].map
    (fun a => decide (Literal (bytes a))) = [true, true, true, false, false, false] := by
  decide

/-! ## Plain bytes -/

section
variable {c : Byte}

/-- What a byte that is not special is not. -/
structure Plain (c : Byte) : Prop where
  lf : c ≠ LF
  blank : isblank c = false
  operator : isMeta c = false
  backslash : c ≠ BACKSLASH
  squote : c ≠ SQUOTE
  dquote : c ≠ DQUOTE
  substitutes : substitutes c = false

theorem plain_iff : special c = false ↔ Plain c := by
  simp only [special, Bool.or_eq_false_iff, beq_eq_false_iff_ne]
  constructor
  · rintro ⟨⟨⟨⟨⟨⟨h1, h2⟩, h3⟩, h4⟩, h5⟩, h6⟩, h7⟩
    exact ⟨h1, h2, h3, h4, h5, h6, h7⟩
  · rintro ⟨h1, h2, h3, h4, h5, h6, h7⟩
    exact ⟨⟨⟨⟨⟨⟨h1, h2⟩, h3⟩, h4⟩, h5⟩, h6⟩, h7⟩

theorem Plain.dollar (h : Plain c) : c ≠ DOLLAR := by
  rintro rfl
  exact absurd h.substitutes (by decide)

theorem Plain.backquote (h : Plain c) : c ≠ BACKQUOTE := by
  rintro rfl
  exact absurd h.substitutes (by decide)

/-- No operator goes on with it. -/
theorem Plain.not_extends (h : Plain c) (hc : c ≠ ch '-') (p : Pending) :
    p.extends c = false := by
  have hlast : operators.all fun o => o.getLast?.all fun c => isMeta c || c == ch '-' := by decide
  cases p with
  | operator raw =>
    refine Bool.eq_false_iff.2 fun hmem => ?_
    have := List.all_eq_true.1 hlast _ (List.contains_iff_mem.1 hmem)
    rw [List.getLast?_concat, Option.all_some, h.operator, Bool.false_or] at this
    exact hc (eq_of_beq this)
  | _ => rfl

theorem Plain.opens_eq (h : Plain c) {dollar : Bool} (hc : dollar = false ∨ c ≠ ch '{') :
    opens dollar c = [] := by
  have hparen : c ≠ ch '(' := by
    rintro rfl
    exact absurd h.operator (by decide)
  have hbrace : ¬ (dollar = true ∧ c = ch '{') := by
    rintro ⟨rfl, rfl⟩
    simp at hc
  unfold opens
  rw [if_neg h.squote, if_neg h.dquote, if_neg h.backquote, if_neg fun h => hparen h.2,
    if_neg hbrace]

/-- A byte that neither has a meaning of its own nor belongs to one. -/
def ordinary (c : Byte) : Bool := special c == false && !(bytes "#{}-").contains c

theorem Plain.next_eq (h : Plain c) (hopen : c ≠ ch '{') (hclose : c ≠ ch '}') (dollar : Bool)
    (m : Mode) : m.next dollar c = [m] := by
  have hopens : opens dollar c = [] := h.opens_eq (.inr hopen)
  have hparen : c ≠ ch '(' := by
    rintro rfl
    exact absurd h.operator (by decide)
  have hthesis : c ≠ ch ')' := by
    rintro rfl
    exact absurd h.operator (by decide)
  cases m with
  | single => exact if_neg h.squote
  | double => simp [Mode.next, h.dquote, h.squote, hopens]
  | backquote => exact if_neg h.backquote
  | brace => simp [Mode.next, hclose, hopens]
  | paren => simp [Mode.next, hparen, hthesis, hopens]

end

/-! ## Reading piece by piece -/

namespace Scan

/-- The same reader behind other tokens. -/
def behind (ts : List Token) (s : Scan) : Scan := { s with tokens := ts ++ s.tokens }

section
variable {s t : Scan} {c : Byte} {raw text : Str} {ts : List Token}

@[simp] theorem run_nil (s : Scan) : s.run [] = s := rfl

@[simp] theorem run_cons (s : Scan) (c : Byte) (text : Str) :
    s.run (c :: text) = (s.step c).run text := rfl

theorem run_append (s : Scan) (text rest : Str) : s.run (text ++ rest) = (s.run text).run rest :=
  List.foldl_append

theorem perform_behind (ts : List Token) (s : Scan) (c : Byte) (a : Action) :
    (s.behind ts).perform c a = (s.perform c a).behind ts := by
  cases a with
  | text t modes dollar => cases hp : s.pending <;> simp [perform, behind, hp]
  | extend => cases hp : s.pending <;> simp [perform, behind, hp]
  | _ => simp [perform, behind]

theorem step_behind (ts : List Token) (s : Scan) (c : Byte) :
    (s.behind ts).step c = (s.step c).behind ts := perform_behind ts s c (s.action c)

theorem run_behind (ts : List Token) (s : Scan) (text : Str) :
    (s.behind ts).run text = (s.run text).behind ts := by
  induction text generalizing s with
  | nil => rfl
  | cons c text ih => rw [run_cons, run_cons, step_behind, ih]

theorem finish_behind (ts : List Token) (s : Scan) : (s.behind ts).finish = ts ++ s.finish := by
  unfold finish
  have he : (s.behind ts).escaped = s.escaped := rfl
  have hm : (s.behind ts).modes = s.modes := rfl
  rw [he, hm]
  split
  · rw [perform_behind]
    exact List.append_assoc ..
  · exact List.append_assoc ..

/-- What is read stays read. -/
theorem finish_run_eq (s : Scan) (text : Str) :
    ∃ more, (s.run text).finish = s.tokens ++ more := by
  refine ⟨(({ s with tokens := [] } : Scan).run text).finish, ?_⟩
  rw [← finish_behind, ← run_behind]
  simp [behind]

/-! ### Readers that differ in the text of their words -/

/-- The readers have read as many tokens, and do the same with what comes. -/
structure Alike (s t : Scan) : Prop where
  count : s.tokens.length = t.tokens.length
  pending : s.pending = t.pending ∨ s.pending.isWord = true ∧ t.pending.isWord = true
  modes : s.modes = t.modes
  escaped : s.escaped = t.escaped
  dollar : s.dollar = t.dollar

theorem Alike.refl (s : Scan) : s.Alike s := ⟨rfl, .inl rfl, rfl, rfl, rfl⟩

theorem Alike.trans {u : Scan} (h : s.Alike t) (h' : t.Alike u) : s.Alike u := by
  refine ⟨h.count.trans h'.count, ?_, h.modes.trans h'.modes, h.escaped.trans h'.escaped,
    h.dollar.trans h'.dollar⟩
  rcases h.pending with hst | ⟨hs, ht⟩
  · rw [hst]
    exact h'.pending
  · rcases h'.pending with htu | ⟨-, hu⟩
    · exact .inr ⟨hs, htu ▸ ht⟩
    · exact .inr ⟨hs, hu⟩

theorem Alike.action_eq (h : s.Alike t) (c : Byte) : s.action c = t.action c := by
  have hcomment : s.pending = .comment ↔ t.pending = .comment := by
    rcases h.pending with hp | ⟨hs, ht⟩
    · rw [hp]
    · refine iff_of_false ?_ ?_ <;> intro hp
      · simp [hp, Pending.isWord] at hs
      · simp [hp, Pending.isWord] at ht
  have hextends : s.pending.extends c = t.pending.extends c := by
    rcases h.pending with hp | ⟨hs, ht⟩
    · rw [hp]
    · cases hp : s.pending <;> cases hq : t.pending <;>
        simp_all [Pending.isWord, Pending.extends]
  have hword : s.pending.isWord = t.pending.isWord := by
    rcases h.pending with hp | ⟨hs, ht⟩
    · rw [hp]
    · rw [hs, ht]
  simp only [action, h.modes, h.escaped, h.dollar, hcomment, hextends, hword]

theorem Alike.closed_length (h : s.Alike t) (c : Byte) :
    (s.tokens ++ s.pending.closed c).length = (t.tokens ++ t.pending.closed c).length := by
  have hword : ∀ p : Pending, p.isWord = true → (p.closed c).length = 1 := by
    intro p hp
    cases p with
    | word raw =>
      rw [Pending.closed.eq_1, apply_ite List.length]
      exact ite_self 1
    | _ => cases hp
  rw [List.length_append, List.length_append, h.count]
  rcases h.pending with hp | ⟨hs, ht⟩
  · rw [hp]
  · rw [hword _ hs, hword _ ht]

theorem Alike.perform (h : s.Alike t) (c : Byte) (a : Action) :
    (s.perform c a).Alike (t.perform c a) := by
  have hclosed := h.closed_length c
  obtain ⟨hcount, hpending, hmodes, hescaped, hdollar⟩ := h
  obtain ⟨ss, sp, sm, se, sd⟩ := s
  obtain ⟨ts, tp, tm, te, td⟩ := t
  dsimp only at hcount hpending hmodes hescaped hdollar hclosed
  subst hmodes hescaped hdollar
  rcases hpending with rfl | ⟨hs, ht⟩
  · cases a with
    | lineEnd =>
      refine ⟨?_, .inl rfl, rfl, rfl, rfl⟩
      simp only [Scan.perform, List.length_append] at hclosed ⊢
      rw [hclosed]
    | text text modes dollar =>
      cases sp with
      | word raw => exact ⟨hcount, .inl rfl, rfl, rfl, rfl⟩
      | _ => exact ⟨hclosed, .inl rfl, rfl, rfl, rfl⟩
    | extend =>
      cases sp <;> exact ⟨hcount, .inl rfl, rfl, rfl, rfl⟩
    | escape | join | skip => exact ⟨hcount, .inl rfl, rfl, rfl, rfl⟩
    | _ => exact ⟨hclosed, .inl rfl, rfl, rfl, rfl⟩
  · cases sp <;> cases hs
    cases tp <;> cases ht
    cases a with
    | lineEnd =>
      refine ⟨?_, .inl rfl, rfl, rfl, rfl⟩
      simp only [Scan.perform, List.length_append] at hclosed ⊢
      rw [hclosed]
    | space | comment | operator => exact ⟨hclosed, .inl rfl, rfl, rfl, rfl⟩
    | _ => exact ⟨hcount, .inr ⟨rfl, rfl⟩, rfl, rfl, rfl⟩

theorem Alike.step (h : s.Alike t) (c : Byte) : (s.step c).Alike (t.step c) := by
  unfold Scan.step
  rw [h.action_eq c]
  exact h.perform c _

theorem Alike.run (h : s.Alike t) (text : Str) : (s.run text).Alike (t.run text) := by
  induction text generalizing s t with
  | nil => exact h
  | cons c text ih => exact ih (h.step c)

end

/-! ### Plain bytes -/

section
variable {s : Scan} {c : Byte} {raw : Str}

/-- In a word it is one more byte of it. -/
theorem step_word_plain (h : Plain c) (ts : List Token) (raw : Str) :
    step ⟨ts, .word raw, [], false, false⟩ c = ⟨ts, .word (raw ++ [c]), [], false, false⟩ := by
  have haction : action ⟨ts, .word raw, [], false, false⟩ c = .text [c] [] false := by
    simp [action, h.lf, h.backslash, h.blank, h.operator, h.dollar, Pending.extends, Pending.isWord,
      h.opens_eq (.inl rfl)]
  unfold step
  rw [haction]
  rfl

/-- Plain text is one word. -/
theorem run_word_plain {a : Str} (h : ∀ c ∈ a, special c = false) (ts : List Token) (raw : Str) :
    run ⟨ts, .word raw, [], false, false⟩ a = ⟨ts, .word (raw ++ a), [], false, false⟩ := by
  induction a generalizing raw with
  | nil => rw [run_nil, List.append_nil]
  | cons c a ih =>
    have hc : Plain c := plain_iff.1 (h c List.mem_cons_self)
    rw [run_cons, step_word_plain hc, ih fun c hc => h c (List.mem_cons_of_mem _ hc),
      List.append_assoc]
    rfl

theorem action_ordinary (hc : ordinary c = true) (s : Scan) : s.action c =
    if s.escaped then .text [BACKSLASH, c] s.modes false
    else if s.modes = [] ∧ s.pending = .comment then .skip
    else .text [c] s.modes false := by
  obtain ⟨hspecial, hno⟩ := Bool.and_eq_true_iff.1 hc
  have h : Plain c := plain_iff.1 (eq_of_beq hspecial)
  have hno : c ∉ bytes "#{}-" := by simpa using hno
  have hno : c ≠ ch '#' ∧ c ≠ ch '{' ∧ c ≠ ch '}' ∧ c ≠ ch '-' := by
    refine ⟨?_, ?_, ?_, ?_⟩ <;>
      · rintro rfl
        exact hno (by decide)
  obtain ⟨hhash, hopen, hclose, hminus⟩ := hno
  unfold action
  rw [if_neg h.lf]
  refine if_congr Iff.rfl rfl ?_
  cases hm : s.modes with
  | nil =>
    simp [h.lf, h.backslash, h.blank, h.operator, h.dollar, h.not_extends hminus, hhash,
      h.opens_eq (.inr hopen)]
  | cons m modes =>
    simp [h.backslash, h.dollar, h.next_eq hopen hclose]

/-- In a word, whatever is open there, it is one more byte of the word. -/
theorem step_word_ordinary (hc : ordinary c = true) (ts : List Token) (raw : Str)
    (modes : List Mode) :
    step ⟨ts, .word raw, modes, false, false⟩ c = ⟨ts, .word (raw ++ [c]), modes, false, false⟩ := by
  unfold step
  rw [action_ordinary hc, if_neg Bool.false_ne_true, if_neg fun h => nomatch h.2]
  rfl

/-- Outside of comments it makes for a word. -/
theorem step_ordinary (hc : ordinary c = true) (s : Scan) :
    (s.step c = s ∧ s.pending = .comment) ∨
      ∃ ts raw, s.step c = ⟨ts, .word raw, s.modes, false, false⟩ := by
  have htext : ∀ text, ∃ ts raw, s.perform c (.text text s.modes false) =
      ⟨ts, .word raw, s.modes, false, false⟩ := by
    intro text
    cases hp : s.pending <;> simp [perform, hp]
  unfold step
  rw [action_ordinary hc]
  split
  · exact .inr (htext _)
  · split
    · rename_i h
      exact .inl ⟨rfl, h.2⟩
    · exact .inr (htext _)

/-- Twice the same ordinary byte does what it does once. -/
theorem step_twice (hc : ordinary c = true) (s : Scan) : ((s.step c).step c).Alike (s.step c) := by
  rcases step_ordinary hc s with ⟨h, -⟩ | ⟨ts, raw, h⟩
  · rw [h, h]
    exact .refl s
  · rw [h, step_word_ordinary hc]
    exact ⟨rfl, .inr ⟨rfl, rfl⟩, rfl, rfl, rfl⟩

/-- The reader between two words. -/
def Between (s : Scan) : Prop := s = ⟨s.tokens, .between, [], false, false⟩

theorem Between.eq_behind (h : s.Between) : s = start.behind s.tokens := by
  rw [h]
  simp [behind, start]

theorem Between.finish_eq (h : s.Between) : s.finish = s.tokens := by
  rw [h]
  exact List.append_nil _

theorem Between.of_alike {t : Scan} (h : s.Between) (ha : s.Alike t) : t.Between := by
  obtain ⟨tt, tp, tm, te, td⟩ := t
  obtain ⟨-, hp, hm, he, hd⟩ := ha
  rw [h] at hp hm he hd
  rcases hp with hp | ⟨hp, -⟩
  · dsimp only at hp hm he hd
    subst hp hm he hd
    rfl
  · cases hp

/-- An ordinary byte does not stand right before the place. -/
theorem Between.not_ordinary (hc : ordinary c = true) {text : Str}
    (h : (start.run text).Between) : text.getLast? ≠ some c := by
  intro hlast
  obtain ⟨t, rfl⟩ := List.getLast?_eq_some_iff.1 hlast
  rw [run_append, run_cons, run_nil] at h
  have hpending : ((start.run t).step c).pending = .between := by rw [h]
  rcases step_ordinary hc (start.run t) with ⟨hs, hcomment⟩ | ⟨ts, raw, hs⟩
  · rw [hs, hcomment] at hpending
    cases hpending
  · rw [hs] at hpending
    cases hpending

/-- A delimiter ends the word and does what it does at the start. -/
theorem step_word_delimiter (hc : isblank c = true ∨ isMeta c = true)
    (hraw : ¬ raw.all isdigit = true) (ts : List Token) :
    step ⟨ts, .word raw, [], false, false⟩ c = (start.step c).behind (ts ++ [.word raw]) := by
  have hlf : c ≠ LF := by
    rintro rfl
    exact absurd hc (by decide)
  have hbackslash : c ≠ BACKSLASH := by
    rintro rfl
    exact absurd hc (by decide)
  have hclosed : ∀ c, (Pending.word raw).closed c = [.word raw] := fun c => by
    simp [Pending.closed, hraw]
  by_cases hblank : isblank c = true
  · simp [step, action, perform, start, behind, hlf, hbackslash, hblank, hclosed]
    rfl
  · have hmeta : isMeta c = true := hc.resolve_left hblank
    simp [step, action, perform, start, behind, hlf, hbackslash, hblank, hmeta, hclosed,
      Pending.extends]
    rfl

end

end Scan

section
variable {pre post a rest raw : Str} {c : Byte}

/-- Between two words the text begins anew. -/
theorem tokens_append (h : (Scan.start.run pre).Between) (rest : Str) :
    tokens (pre ++ rest) = tokens pre ++ tokens rest := by
  have hrun : (Scan.start.run pre).run rest =
      (Scan.start.run rest).behind (Scan.start.run pre).tokens := by
    rw [← Scan.run_behind, ← h.eq_behind]
  have hpre : tokens pre = (Scan.start.run pre).tokens := h.finish_eq
  unfold tokens at hpre ⊢
  rw [Scan.run_append, hrun, Scan.finish_behind, hpre]

/-- What ends a word. -/
def Delimited (rest : Str) : Prop := ∀ c, rest.head? = some c → isblank c = true ∨ isMeta c = true

/-- A word that is over at a delimiter. -/
theorem finish_word_delimited (hrest : Delimited rest) (hraw : ¬ raw.all isdigit = true)
    (ts : List Token) :
    (Scan.run ⟨ts, .word raw, [], false, false⟩ rest).finish = ts ++ .word raw :: tokens rest := by
  cases rest with
  | nil => simp [Scan.finish, Pending.closed, hraw, tokens, Scan.start]
  | cons c rest =>
    rw [Scan.run_cons, Scan.step_word_delimiter (hrest c rfl) hraw, Scan.run_behind,
      Scan.finish_behind, List.append_assoc]
    rfl

/-- At the start plain text is one word, unless it is a comment. -/
theorem run_start_plain (h : ∀ c ∈ a, special c = false) (hhash : a.head? ≠ some (ch '#'))
    (hne : a ≠ []) : Scan.start.run a = ⟨[], .word a, [], false, false⟩ := by
  cases a with
  | nil => exact absurd rfl hne
  | cons c a =>
    have hc : Plain c := plain_iff.1 (h c List.mem_cons_self)
    have hhash : c ≠ ch '#' := fun hc => hhash (congrArg some hc)
    have hstep : Scan.start.step c = ⟨[], .word [c], [], false, false⟩ := by
      simp [Scan.step, Scan.action, Scan.perform, Scan.start, hc.lf, hc.backslash, hc.blank,
        hc.operator, hc.dollar, hc.opens_eq (.inl rfl), hhash, Pending.extends, Pending.closed]
    rw [Scan.run_cons, hstep, Scan.run_word_plain fun c hc => h c (List.mem_cons_of_mem _ hc)]
    rfl

/-- A literal is a word of its own. -/
theorem Literal.tokens_append (h : Literal a) (hne : ¬ a.all isdigit = true)
    (hrest : Delimited rest) : tokens (a ++ rest) = .word a :: tokens rest := by
  have hnil : a ≠ [] := by
    rintro rfl
    exact hne rfl
  have hfinish := finish_word_delimited hrest hne []
  rw [← run_start_plain h.plain h.comment hnil, ← Scan.run_append] at hfinish
  exact hfinish

theorem unquote_plain (h : ∀ c ∈ a, special c = false) : unquote .plain a = some (bare a) := by
  induction a with
  | nil => rfl
  | cons c a ih =>
    have hc : Plain c := plain_iff.1 (h c List.mem_cons_self)
    rw [unquote, if_neg hc.backslash, if_neg hc.squote, if_neg hc.dquote, hc.substitutes,
      if_neg Bool.false_ne_true, ih fun c hc => h c (List.mem_cons_of_mem _ hc)]
    rfl

theorem bare_map_fst (a : Str) : (bare a).map Prod.fst = a := by
  simp [bare, Function.comp_def]

/-- A literal is its own argument. -/
theorem Literal.argument_eq (h : Literal a) : argument a = some a := by
  unfold argument
  rw [if_neg h.tilde, unquote_plain h.plain, Option.bind_some, h.pattern,
    if_neg Bool.false_ne_true, bare_map_fst]

end

end Lib.Shell
