import Mathlib.Logic.Function.Basic

/-!
# Temporary files on a shared disk

A disk with names, inodes and descriptors, on which any number of parties each make one file at a
time: `mkstemp`, writes, `close`, hard links under further names, `unlink`. `Book` is what a party
knows about its file from its own calls alone. While every party keeps its book, the books are
right, and a name that was linked keeps its file with its text (`OnDisk.run`), however the calls
interleave.
-/

namespace Lib

/-- Names are `P`, bytes `B`. Descriptors are the integers the calls return. -/
structure Disk (P B : Type) where
  names : P → Option Nat
  text : Nat → List B
  fds : Int → Option Nat
  next : Nat
  /-- The names that were made by a call of one of the parties. -/
  made : List P

/-- Names and descriptors lead to inodes that are there. -/
structure Disk.Bounded {P B : Type} (d : Disk P B) : Prop where
  names : ∀ path i, d.names path = some i → i < d.next
  fds : ∀ fd i, d.fds fd = some i → i < d.next

/-- A call that succeeds. `link` carries the text that the file has, where the party knows it. -/
inductive FileOp (P B : Type)
  | mkstemp (path : P) (fd : Int)
  | write (fd : Int) (text : List B)
  | close (fd : Int)
  | link (old new : P) (text : Option (List B))
  | unlink (path : P)
  /-- A command is given the text of the party's file. -/
  | feed (text : List B)
  | other

section
variable {P B : Type} [DecidableEq P]

/-- What the calls do. -/
inductive Disk.Step (d : Disk P B) : FileOp P B → Disk P B → Prop
  | mkstemp {path : P} {fd : Int} : d.names path = none → d.fds fd = none →
      Step d (.mkstemp path fd)
        { names := Function.update d.names path (some d.next)
          text := Function.update d.text d.next []
          fds := Function.update d.fds fd (some d.next)
          next := d.next + 1
          made := path :: d.made }
  | write {fd : Int} {text : List B} {i : Nat} : d.fds fd = some i →
      Step d (.write fd text) { d with text := Function.update d.text i (d.text i ++ text) }
  | close {fd : Int} : Step d (.close fd) { d with fds := Function.update d.fds fd none }
  | link {old new : P} {text : Option (List B)} {i : Nat} : d.names old = some i →
      d.names new = none →
      Step d (.link old new text)
        { d with names := Function.update d.names new (some i), made := new :: d.made }
  | unlink {path : P} : Step d (.unlink path) { d with names := Function.update d.names path none }
  | feed {text : List B} : Step d (.feed text) d
  | other : Step d .other d

/-- The disk behind a call that succeeds. -/
def Disk.exec (d : Disk P B) : FileOp P B → Option (Disk P B)
  | .mkstemp path fd =>
    if d.names path = none ∧ d.fds fd = none then
      some
        { names := Function.update d.names path (some d.next)
          text := Function.update d.text d.next []
          fds := Function.update d.fds fd (some d.next)
          next := d.next + 1
          made := path :: d.made }
    else none
  | .write fd text => (d.fds fd).map fun i =>
    { d with text := Function.update d.text i (d.text i ++ text) }
  | .close fd => some { d with fds := Function.update d.fds fd none }
  | .link old new _ =>
    match d.names old, d.names new with
    | some i, none =>
      some { d with names := Function.update d.names new (some i), made := new :: d.made }
    | _, _ => none
  | .unlink path => some { d with names := Function.update d.names path none }
  | .feed _ | .other => some d

theorem Disk.exec_step {d d' : Disk P B} {op : FileOp P B} (h : d.exec op = some d') :
    d.Step op d' := by
  cases op with
  | mkstemp path fd =>
    simp only [exec] at h
    split at h
    · rename_i hfree
      cases h
      exact .mkstemp hfree.1 hfree.2
    · cases h
  | write fd text =>
    obtain ⟨i, hi, hd⟩ := Option.map_eq_some_iff.1 h
    cases hd
    exact .write hi
  | close fd => cases h; exact .close
  | link old new text =>
    simp only [exec] at h
    split at h
    · rename_i i hold hnew
      cases h
      exact .link hold hnew
    · cases h
  | unlink path => cases h; exact .unlink
  | feed text => cases h; exact .feed
  | other => cases h; exact .other

/-- What other programs do: anything but change or remove the files behind the names that the
parties have made. -/
structure Disk.Elsewhere (d d' : Disk P B) : Prop where
  fds : d'.fds = d.fds
  made : d'.made = d.made
  next : d.next ≤ d'.next
  bound : ∀ path i, d'.names path = some i → i < d'.next
  keep : ∀ path ∈ d.made, ∀ i, d.names path = some i →
    d'.names path = some i ∧ d'.text i = d.text i

/-- The calls of all parties in their order, with other programs at work in between. -/
inductive Disk.Run : Disk P B → List (FileOp P B) → Disk P B → Prop
  | done {d : Disk P B} : Run d [] d
  | call {d d' d'' : Disk P B} {op : FileOp P B} {ops : List (FileOp P B)} : d.Step op d' →
      Run d' ops d'' → Run d (op :: ops) d''
  | others {d d' d'' : Disk P B} {ops : List (FileOp P B)} : d.Elsewhere d' → Run d' ops d'' →
      Run d ops d''

theorem Disk.exec_run : ∀ {ops : List (FileOp P B)} {d d' : Disk P B},
    ops.foldlM Disk.exec d = some d' → d.Run ops d'
  | [], d, d', h => by
    cases h
    exact .done
  | op :: ops, d, d', h => by
    rw [List.foldlM_cons] at h
    obtain ⟨d1, h1, h⟩ := Option.bind_eq_some_iff.1 h
    exact .call (exec_step h1) (exec_run h)

/-! ## The books -/

/-- A file as its party knows it; `fd` is the descriptor while the file is open. -/
structure File (P B : Type) where
  path : P
  text : List B
  fd : Option Int
  deriving DecidableEq

/-- What a party knows: nothing, or its file. -/
abbrev Book (P B : Type) := Option (File P B)

section
variable [DecidableEq B]

/-- The book behind a call, unless the call is out of turn. -/
def Book.next : Book P B → FileOp P B → Option (Book P B)
  | none, .mkstemp path fd => if 0 < fd then some (some ⟨path, [], some fd⟩) else none
  | some f, .write fd more =>
    if f.fd = some fd then some (some { f with text := f.text ++ more }) else none
  | some f, .close fd => if f.fd = some fd then some (some { f with fd := none }) else none
  | some f, .link old _ text =>
    if f.fd = none ∧ old = f.path ∧ text = some f.text then some (some f) else none
  | some f, .feed text => if f.fd = none ∧ text = f.text then some (some f) else none
  | some f, .unlink path => if f.fd = none ∧ path = f.path then some none else none
  | book, .other => some book
  | _, _ => none

/-- The calls of a party, from one book to another. -/
def Book.run (ops : List (FileOp P B)) (book : Book P B) : Option (Book P B) :=
  ops.foldlM Book.next book

theorem Book.run_append (l₁ l₂ : List (FileOp P B)) (book : Book P B) :
    Book.run (l₁ ++ l₂) book = (Book.run l₁ book).bind (Book.run l₂) := List.foldlM_append

/-- The book of a prefix. -/
theorem Book.run_prefix {l₁ l₂ : List (FileOp P B)} {book book' : Book P B}
    (h : Book.run l₂ book = some book') (hl : l₁ <+: l₂) :
    ∃ book1, Book.run l₁ book = some book1 := by
  obtain ⟨l, rfl⟩ := hl
  rw [Book.run_append] at h
  obtain ⟨book1, h1, -⟩ := Option.bind_eq_some_iff.1 h
  exact ⟨book1, h1⟩

/-- What a call says about the book before it. -/
theorem Book.next_cases {book book' : Book P B} {op : FileOp P B}
    (h : Book.next book op = some book') :
    (∃ path fd, book = none ∧ op = .mkstemp path fd ∧ 0 < fd ∧
      book' = some ⟨path, [], some fd⟩) ∨
    (∃ f fd more, book = some f ∧ op = .write fd more ∧ f.fd = some fd ∧
      book' = some { f with text := f.text ++ more }) ∨
    (∃ f fd, book = some f ∧ op = .close fd ∧ f.fd = some fd ∧
      book' = some { f with fd := none }) ∨
    (∃ f new, book = some f ∧ op = .link f.path new (some f.text) ∧ f.fd = none ∧ book' = book) ∨
    (∃ f, book = some f ∧ op = .feed f.text ∧ f.fd = none ∧ book' = book) ∨
    (∃ f, book = some f ∧ op = .unlink f.path ∧ f.fd = none ∧ book' = none) ∨
    (op = .other ∧ book' = book) := by
  unfold Book.next at h
  split at h
  · split at h <;> cases h
    exact .inl ⟨_, _, rfl, rfl, ‹_›, rfl⟩
  · split at h <;> cases h
    exact .inr (.inl ⟨_, _, _, rfl, rfl, ‹_›, rfl⟩)
  · split at h <;> cases h
    exact .inr (.inr (.inl ⟨_, _, rfl, rfl, ‹_›, rfl⟩))
  · split at h
    · rename_i hcond
      obtain ⟨hfd, rfl, rfl⟩ := hcond
      cases h
      exact .inr (.inr (.inr (.inl ⟨_, _, rfl, rfl, hfd, rfl⟩)))
    · cases h
  · split at h
    · rename_i hcond
      obtain ⟨hfd, rfl⟩ := hcond
      cases h
      exact .inr (.inr (.inr (.inr (.inl ⟨_, rfl, rfl, hfd, rfl⟩))))
    · cases h
  · split at h
    · rename_i hcond
      obtain ⟨hfd, rfl⟩ := hcond
      cases h
      exact .inr (.inr (.inr (.inr (.inr (.inl ⟨_, rfl, rfl, hfd, rfl⟩)))))
    · cases h
  · cases h
    exact .inr (.inr (.inr (.inr (.inr (.inr ⟨rfl, rfl⟩)))))
  · cases h

/-- Every link of a kept book says which text the file has. -/
theorem Book.run_link : ∀ {ops : List (FileOp P B)} {book book' : Book P B},
    Book.run ops book = some book' → ∀ {old new : P} {content : Option (List B)},
    FileOp.link old new content ∈ ops → ∃ text, content = some text
  | [], _, _, _, _, _, _, hmem => by cases hmem
  | op :: ops, book, book', h, old, new, content, hmem => by
    rw [Book.run, List.foldlM_cons] at h
    obtain ⟨book1, h1, h⟩ := Option.bind_eq_some_iff.1 h
    rcases List.mem_cons.1 hmem with rfl | hmem
    · rcases Book.next_cases h1 with ⟨_, _, -, he, -⟩ | ⟨_, _, _, -, he, -⟩ | ⟨_, _, -, he, -⟩ |
        ⟨f, _, -, he, -⟩ | ⟨_, -, he, -⟩ | ⟨_, -, he, -⟩ | ⟨he, -⟩ <;> cases he
      exact ⟨f.text, rfl⟩
    · exact run_link h hmem

end

/-- The names that a call has linked, with the text of the file. -/
def FileOp.links : FileOp P B → List (P × List B)
  | .link _ new text => text.toList.map (new, ·)
  | .mkstemp _ _ | .write _ _ | .close _ | .unlink _ | .feed _ | .other => []

/-- The books of all parties are right, their files are different ones, and the names in `linked`
still lead to files with their texts, to which nobody writes. -/
structure OnDisk {A : Type} (d : Disk P B) (books : A → Book P B) (linked : List (P × List B)) :
    Prop where
  bound : ∀ path i, d.names path = some i → i < d.next
  fds : ∀ fd i, d.fds fd = some i → i < d.next
  file : ∀ a f, books a = some f → f.path ∈ d.made ∧
    ∃ i, d.names f.path = some i ∧ d.text i = f.text ∧ ∀ fd, f.fd = some fd → d.fds fd = some i
  apart : ∀ a b f g, books a = some f → books b = some g → d.names f.path = d.names g.path → a = b
  linked : ∀ p text, (p, text) ∈ linked → p ∈ d.made ∧
    (∃ i, d.names p = some i ∧ d.text i = text ∧
      ∀ a f fd, books a = some f → f.fd = some fd → d.names f.path ≠ some i) ∧
    ∀ a f, books a = some f → f.path ≠ p

end

/-- Before the first call there is no book. -/
theorem OnDisk.start {P B A : Type} {d : Disk P B} (h : d.Bounded) :
    OnDisk d (fun _ : A => none) [] :=
  ⟨h.names, h.fds, fun _ _ h => (by cases h), fun _ _ _ _ h => (by cases h),
    fun _ _ h => (by cases h)⟩

/-! ## What a call keeps -/

section
variable {P B A : Type} {d d' : Disk P B} {books : A → Book P B} {linked : List (P × List B)}
  {a b : A} {f g : File P B} {book : Book P B} {op : FileOp P B}

/-- The names and books stay, whatever else happens on the disk. -/
theorem OnDisk.elsewhere (h : OnDisk d books linked) (he : d.Elsewhere d') : OnDisk d' books linked := by
  obtain ⟨hfds, hmade, hnext, hbound, hkeep⟩ := he
  have hfile : ∀ a f, books a = some f → d'.names f.path = d.names f.path := by
    intro a f ha
    obtain ⟨hm, i, hi, -⟩ := h.file a f ha
    rw [(hkeep _ hm i hi).1, hi]
  refine ⟨hbound, fun fd i hfd => ?_, fun a f ha => ?_, fun a b f g ha hb hn => ?_,
    fun p text hp => ?_⟩
  · rw [hfds] at hfd
    exact Nat.lt_of_lt_of_le (h.fds fd i hfd) hnext
  · obtain ⟨hm, i, hi, ht, hfd⟩ := h.file a f ha
    obtain ⟨hi', ht'⟩ := hkeep _ hm i hi
    exact ⟨hmade ▸ hm, i, hi', ht'.trans ht, fun fd hfd' => hfds ▸ hfd fd hfd'⟩
  · rw [hfile a f ha, hfile b g hb] at hn
    exact h.apart a b f g ha hb hn
  · obtain ⟨hm, ⟨i, hi, ht, hsealed⟩, hown⟩ := h.linked p text hp
    obtain ⟨hi', ht'⟩ := hkeep _ hm i hi
    refine ⟨hmade ▸ hm, ⟨i, hi', ht'.trans ht, fun a f fd ha hfd => ?_⟩, hown⟩
    rw [hfile a f ha]
    exact hsealed a f fd ha hfd

variable [DecidableEq A]

/-- A book behind a call of `a`. -/
theorem Book.update_cases (h : Function.update books a book b = some g) :
    (b = a ∧ book = some g) ∨ (b ≠ a ∧ books b = some g) := by
  by_cases hb : b = a
  · subst hb
    rw [Function.update_self] at h
    exact .inl ⟨rfl, h⟩
  · rw [Function.update_of_ne hb] at h
    exact .inr ⟨hb, h⟩

/-- A call of `a`: it leaves the other parties' files and the linked ones alone, and `a`'s own file,
if there is one behind it, is none of the others. -/
theorem OnDisk.update (h : OnDisk d books linked)
    (hbound : ∀ path i, d'.names path = some i → i < d'.next)
    (hfds : ∀ fd i, d'.fds fd = some i → i < d'.next) (hmade : ∀ p ∈ d.made, p ∈ d'.made)
    (hothers : ∀ b f i, b ≠ a → books b = some f → d.names f.path = some i →
      d'.names f.path = some i ∧ d'.text i = d.text i ∧
        ∀ fd, f.fd = some fd → d'.fds fd = d.fds fd)
    (hown : ∀ g, book = some g → g.path ∈ d'.made ∧ ∃ i, d'.names g.path = some i ∧
      d'.text i = g.text ∧ (∀ fd, g.fd = some fd → d'.fds fd = some i) ∧
        ∀ b f, b ≠ a → books b = some f → d.names f.path ≠ some i)
    (hlinked : ∀ p text i, (p, text) ∈ linked → d.names p = some i →
      d'.names p = some i ∧ d'.text i = d.text i ∧
        ∀ g, book = some g → g.path ≠ p ∧ ∀ fd, g.fd = some fd → d'.names g.path ≠ some i) :
    OnDisk d' (Function.update books a book) linked := by
  refine ⟨hbound, hfds, fun b f hb => ?_, fun b c f g hb hc hn => ?_, fun p text hp => ?_⟩
  · rcases Book.update_cases hb with ⟨-, rfl⟩ | ⟨hne, hb⟩
    · obtain ⟨hm, i, hi, ht, hfd, -⟩ := hown f rfl
      exact ⟨hm, i, hi, ht, hfd⟩
    · obtain ⟨hm, i, hi, ht, hfd⟩ := h.file b f hb
      obtain ⟨hi', ht', hfd'⟩ := hothers b f i hne hb hi
      exact ⟨hmade _ hm, i, hi', ht'.trans ht, fun fd e => (hfd' fd e).trans (hfd fd e)⟩
  · have hapart : ∀ {c g}, c ≠ a → books c = some g → ∀ f, book = some f →
        d'.names f.path ≠ d'.names g.path := by
      intro c g hne hc f hf hn
      obtain ⟨-, i, hi, -, -, hdiff⟩ := hown f hf
      obtain ⟨-, j, hj, -⟩ := h.file c g hc
      rw [hi, (hothers c g j hne hc hj).1] at hn
      exact hdiff c g hne hc (hj.trans hn.symm)
    rcases Book.update_cases hb with ⟨hba, hf⟩ | ⟨hne, hb'⟩ <;>
      rcases Book.update_cases hc with ⟨hca, hg⟩ | ⟨hne', hc'⟩
    · exact hba.trans hca.symm
    · exact absurd hn (hapart hne' hc' f hf)
    · exact absurd hn.symm (hapart hne hb' g hg)
    · obtain ⟨-, i, hi, -⟩ := h.file b f hb'
      obtain ⟨-, j, hj, -⟩ := h.file c g hc'
      rw [(hothers b f i hne hb' hi).1, (hothers c g j hne' hc' hj).1] at hn
      exact h.apart b c f g hb' hc' (by rw [hi, hj, hn])
  · obtain ⟨hm, ⟨i, hi, ht, hsealed⟩, hnot⟩ := h.linked p text hp
    obtain ⟨hi', ht', hnew⟩ := hlinked p text i hp hi
    refine ⟨hmade _ hm, ⟨i, hi', ht'.trans ht, fun b f fd hb hfd => ?_⟩, fun b f hb => ?_⟩
    · rcases Book.update_cases hb with ⟨-, hf⟩ | ⟨hne, hb⟩
      · exact (hnew f hf).2 fd hfd
      · obtain ⟨-, j, hj, -⟩ := h.file b f hb
        have := hsealed b f fd hb hfd
        rwa [(hothers b f j hne hb hj).1, ← hj]
    · rcases Book.update_cases hb with ⟨-, hf⟩ | ⟨hne, hb⟩
      · exact (hnew f hf).1
      · exact hnot b f hb

theorem OnDisk.write (h : OnDisk d books linked) (ha : books a = some f) {fd : Int} {more : List B}
    {i : Nat} (hfd : f.fd = some fd) (hi : d.fds fd = some i) :
    OnDisk { d with text := Function.update d.text i (d.text i ++ more) }
      (Function.update books a (some { f with text := f.text ++ more })) linked := by
  obtain ⟨hm, j, hj, ht, hopen⟩ := h.file a f ha
  obtain rfl : j = i := Option.some.inj ((hopen fd hfd).symm.trans hi)
  refine h.update h.bound h.fds (fun p hp => hp) (fun b g k hne hb hk => ?_) (fun g hg => ?_)
    (fun p text k hp hk => ?_)
  · refine ⟨hk, Function.update_of_ne ?_ _ _, fun _ _ => rfl⟩
    rintro rfl
    exact hne (h.apart b a g f hb ha (hk.trans hj.symm))
  · cases hg
    refine ⟨hm, j, hj, ?_, hopen, fun b g hne hb hk => ?_⟩
    · dsimp only
      rw [Function.update_self, ht]
    · exact hne (h.apart b a g f hb ha (hk.trans hj.symm))
  · obtain ⟨-, ⟨k', hk', -, hsealed⟩, hnot⟩ := h.linked p text hp
    obtain rfl := Option.some.inj (hk'.symm.trans hk)
    have hne : k' ≠ j := fun e => hsealed a f fd ha hfd (e ▸ hj)
    refine ⟨hk, Function.update_of_ne hne _ _, fun g hg => ?_⟩
    cases hg
    exact ⟨hnot a f ha, fun fd' hfd' => hsealed a f fd' ha hfd'⟩

theorem OnDisk.close (h : OnDisk d books linked) (ha : books a = some f) {fd : Int}
    (hfd : f.fd = some fd) :
    OnDisk { d with fds := Function.update d.fds fd none }
      (Function.update books a (some { f with fd := none })) linked := by
  obtain ⟨hm, j, hj, ht, hopen⟩ := h.file a f ha
  refine h.update h.bound (fun fd' i hfd' => ?_) (fun p hp => hp) (fun b g k hne hb hk => ?_)
    (fun g hg => ?_) (fun p text k hp hk => ?_)
  · dsimp only at hfd'
    rw [Function.update_apply] at hfd'
    split at hfd'
    · cases hfd'
    · exact h.fds fd' i hfd'
  · refine ⟨hk, rfl, fun fd' hfd' => Function.update_of_ne ?_ _ _⟩
    rintro rfl
    -- one descriptor does not lead to two files
    obtain ⟨-, k', hk', -, hopen'⟩ := h.file b g hb
    have hsame := (hopen' _ hfd').symm.trans (hopen _ hfd)
    exact hne (h.apart b a g f hb ha (by rw [hk', hj, hsame]))
  · cases hg
    refine ⟨hm, j, hj, ht, fun fd' hfd' => (by cases hfd'), fun b g hne hb hk => ?_⟩
    exact hne (h.apart b a g f hb ha (hk.trans hj.symm))
  · obtain ⟨-, -, hnot⟩ := h.linked p text hp
    refine ⟨hk, rfl, fun g hg => ?_⟩
    cases hg
    exact ⟨hnot a f ha, fun fd' hfd' => (by cases hfd')⟩

section
variable [DecidableEq P]

theorem OnDisk.mkstemp (h : OnDisk d books linked) {path : P} {fd : Int} (hn : d.names path = none)
    (hf : d.fds fd = none) :
    OnDisk
      { names := Function.update d.names path (some d.next)
        text := Function.update d.text d.next []
        fds := Function.update d.fds fd (some d.next)
        next := d.next + 1
        made := path :: d.made }
      (Function.update books a (some ⟨path, [], some fd⟩)) linked := by
  -- what was on the disk has neither the new name nor the new inode
  have hold : ∀ {p i}, d.names p = some i → p ≠ path ∧ i ≠ d.next := by
    intro p i hp
    refine ⟨fun e => ?_, Nat.ne_of_lt (h.bound p i hp)⟩
    rw [e, hn] at hp
    cases hp
  have hname : ∀ {p i}, d.names p = some i →
      Function.update d.names path (some d.next) p = some i ∧
        Function.update d.text d.next [] i = d.text i := by
    intro p i hp
    rw [Function.update_of_ne (hold hp).1, Function.update_of_ne (hold hp).2]
    exact ⟨hp, rfl⟩
  refine h.update (fun p i hp => ?_) (fun fd' i hfd' => ?_) (fun p hp => List.mem_cons_of_mem _ hp)
    (fun b f i hne hb hi => ?_) (fun g hg => ?_) (fun p text i hp hi => ?_)
  · dsimp only at hp ⊢
    rw [Function.update_apply] at hp
    split at hp
    · obtain rfl := Option.some.inj hp
      exact Nat.lt_succ_self _
    · exact Nat.lt_succ_of_lt (h.bound p i hp)
  · dsimp only at hfd' ⊢
    rw [Function.update_apply] at hfd'
    split at hfd'
    · obtain rfl := Option.some.inj hfd'
      exact Nat.lt_succ_self _
    · exact Nat.lt_succ_of_lt (h.fds fd' i hfd')
  · obtain ⟨-, j, hj, -, hfd⟩ := h.file b f hb
    refine ⟨(hname hi).1, (hname hi).2, fun fd' hfd' => Function.update_of_ne ?_ _ _⟩
    rintro rfl
    have := hfd fd' hfd'
    rw [hf] at this
    cases this
  · cases hg
    refine ⟨List.mem_cons_self, d.next, Function.update_self .., Function.update_self .., ?_,
      fun b f _ _ hi => (hold hi).2 rfl⟩
    rintro fd' ⟨⟩
    exact Function.update_self ..
  · refine ⟨(hname hi).1, (hname hi).2, fun g hg => ?_⟩
    cases hg
    refine ⟨(hold hi).1.symm, fun fd' _ e => ?_⟩
    dsimp only at e
    rw [Function.update_self] at e
    exact (hold hi).2 (Option.some.inj e).symm

theorem OnDisk.unlink (h : OnDisk d books linked) (ha : books a = some f) :
    OnDisk { d with names := Function.update d.names f.path none } (Function.update books a none)
      linked := by
  obtain ⟨hm, j, hj, -⟩ := h.file a f ha
  refine h.update (fun p i hp => ?_) h.fds (fun p hp => hp) (fun b g k hne hb hk => ?_)
    (fun g hg => (by cases hg)) (fun p text k hp hk => ?_)
  · dsimp only at hp
    rw [Function.update_apply] at hp
    split at hp
    · cases hp
    · exact h.bound p i hp
  · refine ⟨?_, rfl, fun _ _ => rfl⟩
    dsimp only
    rw [Function.update_of_ne, hk]
    intro e
    exact hne (h.apart b a g f hb ha (by rw [e]))
  · obtain ⟨-, -, hnot⟩ := h.linked p text hp
    refine ⟨?_, rfl, fun g hg => (by cases hg)⟩
    dsimp only
    rw [Function.update_of_ne (hnot a f ha).symm, hk]

/-- A link of a closed file: its name stays, and the text with it. -/
theorem OnDisk.link (h : OnDisk d books linked) (ha : books a = some f) (hfd : f.fd = none) {new : P}
    {i : Nat} (hi : d.names f.path = some i) (hn : d.names new = none) :
    OnDisk { d with names := Function.update d.names new (some i), made := new :: d.made } books
      (linked ++ [(new, f.text)]) := by
  have hname : ∀ {p j}, d.names p = some j →
      p ≠ new ∧ Function.update d.names new (some i) p = some j := by
    intro p j hp
    have hne : p ≠ new := fun e => by
      rw [e, hn] at hp
      cases hp
    exact ⟨hne, by rw [Function.update_of_ne hne, hp]⟩
  have hself : Function.update books a (some f) = books := by
    rw [← ha, Function.update_eq_self]
  obtain ⟨hm, j, hj, ht, -⟩ := h.file a f ha
  obtain rfl := Option.some.inj (hj.symm.trans hi)
  have hold : OnDisk { d with names := Function.update d.names new (some j), made := new :: d.made }
      (Function.update books a (some f)) linked := by
    refine h.update (fun p k hp => ?_) h.fds (fun p hp => List.mem_cons_of_mem _ hp)
      (fun b g k hne hb hk => ⟨(hname hk).2, rfl, fun _ _ => rfl⟩) (fun g hg => ?_)
      (fun p text k hp hk => ⟨(hname hk).2, rfl, fun g hg => ?_⟩)
    · dsimp only at hp
      rw [Function.update_apply] at hp
      split at hp
      · obtain rfl := Option.some.inj hp
        exact h.bound _ _ hi
      · exact h.bound p k hp
    · cases hg
      refine ⟨List.mem_cons_of_mem _ hm, j, (hname hi).2, ht,
        fun fd e => (by rw [hfd] at e; cases e), fun b g hne hb hk => ?_⟩
      exact hne (h.apart b a g f hb ha (hk.trans hi.symm))
    · cases hg
      obtain ⟨-, -, hnot⟩ := h.linked p text hp
      exact ⟨hnot a f ha, fun fd e => (by rw [hfd] at e; cases e)⟩
  rw [hself] at hold
  refine ⟨hold.bound, hold.fds, hold.file, hold.apart, fun p text hp => ?_⟩
  rcases List.mem_append.1 hp with hp | hp
  · exact hold.linked p text hp
  · obtain ⟨rfl, rfl⟩ := Prod.mk.inj (List.mem_singleton.1 hp)
    refine ⟨List.mem_cons_self, ⟨j, Function.update_self .., ht, fun b g fd hb hfd' e => ?_⟩,
      fun b g hb e => ?_⟩
    · obtain ⟨-, k, hk, -⟩ := h.file b g hb
      dsimp only at e
      rw [(hname hk).2] at e
      have hba : b = a := h.apart b a g f hb ha (by rw [hk, hi, e])
      rw [hba, ha] at hb
      cases hb
      rw [hfd] at hfd'
      cases hfd'
    · obtain ⟨-, k, hk, -⟩ := h.file b g hb
      exact (hname hk).1 e

variable [DecidableEq B]

/-- **Step.** -/
theorem OnDisk.step (h : OnDisk d books linked) (hd : d.Step op d')
    (hb : (books a).next op = some book) :
    OnDisk d' (Function.update books a book) (linked ++ op.links) := by
  have hsame : books a = book → Function.update books a book = books := by
    rintro rfl
    exact Function.update_eq_self a books
  rcases Book.next_cases hb with ⟨path, fd, ha, rfl, -, rfl⟩ | ⟨f, fd, more, ha, rfl, hfd, rfl⟩ |
    ⟨f, fd, ha, rfl, hfd, rfl⟩ | ⟨f, new, ha, rfl, hfd, rfl⟩ | ⟨f, ha, rfl, hfd, rfl⟩ |
    ⟨f, ha, rfl, hfd, rfl⟩ | ⟨rfl, rfl⟩
  · cases hd with
    | mkstemp hn hf =>
      rw [FileOp.links, List.append_nil]
      exact h.mkstemp hn hf
  · cases hd with
    | write hi =>
      rw [FileOp.links, List.append_nil]
      exact h.write ha hfd hi
  · cases hd with
    | close =>
      rw [FileOp.links, List.append_nil]
      exact h.close ha hfd
  · cases hd with
    | link hi hn =>
      rw [hsame rfl]
      exact h.link ha hfd hi hn
  · cases hd with
    | feed =>
      rw [hsame rfl, FileOp.links, List.append_nil]
      exact h
  · cases hd with
    | unlink =>
      rw [FileOp.links, List.append_nil]
      exact h.unlink ha
  · cases hd with
    | other =>
      rw [hsame rfl, FileOp.links, List.append_nil]
      exact h

omit [DecidableEq A] in
/-- A command is given what is on the disk. -/
theorem OnDisk.feed (h : OnDisk d books linked) {text : List B}
    (hb : (books a).next (.feed text) = some book) :
    ∃ f i, books a = some f ∧ d.names f.path = some i ∧ d.text i = text := by
  rcases Book.next_cases hb with ⟨path, fd, -, he, -⟩ | ⟨f, fd, more, -, he, -⟩ |
    ⟨f, fd, -, he, -⟩ | ⟨f, new, -, he, -⟩ | ⟨f, ha, he, -⟩ | ⟨f, -, he, -⟩ | ⟨he, -⟩ <;> cases he
  obtain ⟨-, i, hi, ht, -⟩ := h.file a f ha
  exact ⟨f, i, ha, hi, ht⟩

end

end

/-! ## All calls -/

/-- The entries of one party. -/
def callsOf {A E : Type} [DecidableEq A] (a : A) (trace : List (A × E)) : List E :=
  trace.filterMap fun x => if x.1 = a then some x.2 else none

section
variable {P B A E N : Type} [DecidableEq P] [DecidableEq B] [DecidableEq A] [DecidableEq N]
  {d d' : Disk P B} {books : A → Book P B} {linked : List (P × List B)}

theorem callsOf_cons_self (a : A) (e : E) (trace : List (A × E)) :
    callsOf a ((a, e) :: trace) = e :: callsOf a trace := by
  simp [callsOf]

theorem callsOf_cons_of_ne {a b : A} (h : b ≠ a) (e : E) (trace : List (A × E)) :
    callsOf a ((b, e) :: trace) = callsOf a trace := by
  simp [callsOf, h]

theorem callsOf_append (a : A) (l₁ l₂ : List (A × E)) :
    callsOf a (l₁ ++ l₂) = callsOf a l₁ ++ callsOf a l₂ := List.filterMap_append

theorem mem_callsOf {a : A} {e : E} {trace : List (A × E)} :
    e ∈ callsOf a trace ↔ (a, e) ∈ trace := by
  induction trace with
  | nil => simp [callsOf]
  | cons x trace ih =>
    obtain ⟨b, e'⟩ := x
    by_cases hb : b = a
    · subst hb
      rw [callsOf_cons_self, List.mem_cons, List.mem_cons, ih, Prod.mk.injEq]
      simp
    · rw [callsOf_cons_of_ne hb, List.mem_cons, ih, Prod.mk.injEq]
      simp [Ne.symm hb]

theorem callsOf_map {E' : Type} (f : E → E') (a : A) (trace : List (A × E)) :
    callsOf a (trace.map fun x => (x.1, f x.2)) = (callsOf a trace).map f := by
  induction trace with
  | nil => rfl
  | cons x trace ih =>
    obtain ⟨b, e⟩ := x
    rw [List.map_cons]
    by_cases hb : b = a
    · subst hb
      rw [callsOf_cons_self, callsOf_cons_self, List.map_cons, ih]
    · rw [callsOf_cons_of_ne hb, callsOf_cons_of_ne hb, ih]

/-- **Run.** While each party keeps its book, the linked names keep their files. -/
theorem OnDisk.run (h : OnDisk d books linked) : ∀ (trace : List (A × FileOp P B)),
    d.Run (trace.map Prod.snd) d' →
    (∀ a, ∃ book, Book.run (callsOf a trace) (books a) = some book) →
    ∃ books' : A → Book P B, OnDisk d' books' (linked ++ trace.flatMap fun x => x.2.links) ∧
      ∀ a, Book.run (callsOf a trace) (books a) = some (books' a) := by
  intro trace hrun
  generalize hops : trace.map Prod.snd = ops at hrun
  induction hrun generalizing trace books linked with
  | done =>
    intro _
    obtain rfl := List.map_eq_nil_iff.1 hops
    exact ⟨books, by simpa using h, fun _ => rfl⟩
  | others he _ ih => exact fun hbooks => ih (h.elsewhere he) _ hops hbooks
  | @call d d1 d2 op ops hstep _ ih =>
    intro hbooks
    cases trace with
    | nil => cases hops
    | cons x trace =>
      obtain ⟨a, op'⟩ := x
      obtain ⟨rfl, rfl⟩ := List.cons.inj hops
      obtain ⟨final, hfinal⟩ := hbooks a
      rw [callsOf_cons_self, Book.run, List.foldlM_cons] at hfinal
      obtain ⟨book, hnext, hrest⟩ := Option.bind_eq_some_iff.1 hfinal
      -- the books behind the call lead to the same ones in the end
      have hsame : ∀ b, Book.run (callsOf b ((a, op') :: trace)) (books b) =
          Book.run (callsOf b trace) (Function.update books a book b) := by
        intro b
        by_cases hb : b = a
        · subst hb
          rw [Function.update_self, callsOf_cons_self, Book.run, List.foldlM_cons, hnext]
          rfl
        · rw [Function.update_of_ne hb, callsOf_cons_of_ne (Ne.symm hb)]
      obtain ⟨books', hkept, hends⟩ := ih (h.step hstep hnext) _ rfl fun b => by
        rw [← hsame]
        exact hbooks b
      exact ⟨books', by rwa [List.flatMap_cons, ← List.append_assoc], fun b => by
        rw [hsame, hends]⟩

/-- The calls of a party with several files are told apart by a label for each file. -/
theorem exists_labelled : ∀ (trace : List (A × E)) (labelled : A → List (N × E)),
    (∀ a, callsOf a trace <+: (labelled a).map Prod.snd) →
    ∃ trace' : List ((A × N) × E), trace'.map (fun x => (x.1.1, x.2)) = trace ∧
      ∀ a n, callsOf (a, n) trace' <+: callsOf n (labelled a)
  | [], labelled, _ => ⟨[], rfl, fun _ _ => List.nil_prefix⟩
  | (a, e) :: trace, labelled, h => by
    have ha := h a
    rw [callsOf_cons_self] at ha
    cases hl : labelled a with
    | nil =>
      rw [hl] at ha
      exact absurd (List.prefix_nil.1 ha) (List.cons_ne_nil _ _)
    | cons x rest =>
      obtain ⟨n, e'⟩ := x
      rw [hl, List.map_cons] at ha
      obtain ⟨he, hrest⟩ := List.cons_prefix_cons.1 ha
      dsimp only at he
      subst he
      obtain ⟨trace', htrace, hlabel⟩ :=
        exists_labelled trace (Function.update labelled a rest) fun b => by
          by_cases hb : b = a
          · subst hb
            rwa [Function.update_self]
          · have hb' := h b
            rw [callsOf_cons_of_ne (Ne.symm hb)] at hb'
            rwa [Function.update_of_ne hb]
      refine ⟨((a, n), e) :: trace', by rw [List.map_cons, htrace], fun b m => ?_⟩
      have hbm := hlabel b m
      by_cases hb : b = a
      · subst hb
        rw [Function.update_self] at hbm
        rw [hl]
        by_cases hm : m = n
        · subst hm
          rw [callsOf_cons_self, callsOf_cons_self]
          exact List.cons_prefix_cons.2 ⟨rfl, hbm⟩
        · rwa [callsOf_cons_of_ne fun e => hm (Prod.mk.inj e).2.symm,
            callsOf_cons_of_ne (Ne.symm hm)]
      · rw [Function.update_of_ne hb] at hbm
        rwa [callsOf_cons_of_ne fun e => hb (Prod.mk.inj e).1.symm]

end

end Lib
