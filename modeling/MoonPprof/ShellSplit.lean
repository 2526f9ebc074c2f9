/-
Quoted words (`shell_split` of `cmd_memprofile_native.rs`).

A word is written in pieces, some between single quotes and some as they are; a
line has white space between its words and around them.

* `exists_writing_iff` — which words can be written;
* `shellSplit_writing` — they are read back, however they are written;
* `inSingle_foldl` — a line ends between quotes exactly when the number of its quotes is odd.
-/
import MoonPprof.Relink
import Mathlib.Algebra.Group.Nat.Even

open Text

namespace Relink

/-! ### Written words -/

/-- A piece of a word: between quotes, where all but a quote may stand, or as it is. -/
inductive Piece where
  | quoted (cs : List Char) (h : '\'' ∉ cs)
  | plain (cs : List Char) (h : ∀ c ∈ cs, c ≠ '\'' ∧ isWhitespace c = false)

namespace Piece

def text : Piece → List Char
  | quoted cs _ => cs
  | plain cs _ => cs

def written : Piece → List Char
  | quoted cs _ => '\'' :: (cs ++ ['\''])
  | plain cs _ => cs

theorem quote_not_mem_text (p : Piece) : '\'' ∉ p.text := by
  cases p with
  | quoted cs h => exact h
  | plain cs h => exact fun hmem => (h _ hmem).1 rfl

end Piece

/-- A word that is not empty, in its pieces. -/
structure Word where
  pieces : List Piece
  ne_nil : pieces.flatMap Piece.text ≠ []

def Word.text (w : Word) : List Char := w.pieces.flatMap Piece.text

def Word.written (w : Word) : List Char := w.pieces.flatMap Piece.written

abbrev White := { cs : List Char // ∀ c ∈ cs, isWhitespace c = true }

/-- A line: words with white space before, between and behind them. -/
inductive Writing where
  | blank (ws : White)
  | last (lead : White) (w : Word)
  | cons (lead : White) (w : Word) (sep : { c : Char // isWhitespace c = true }) (rest : Writing)

namespace Writing

def words : Writing → List (List Char)
  | blank _ => []
  | last _ w => [w.text]
  | cons _ w _ rest => w.text :: rest.words

def line : Writing → List Char
  | blank ws => ws.val
  | last lead w => lead.val ++ w.written
  | cons lead w sep rest => lead.val ++ w.written ++ sep.val :: rest.line

end Writing

/-- A word in one pair of quotes. -/
def Word.inQuotes (cs : List Char) (hne : cs ≠ []) (hquote : '\'' ∉ cs) : Word where
  pieces := [.quoted cs hquote]
  ne_nil := by rwa [List.flatMap_singleton]

theorem Word.text_inQuotes {cs : List Char} (hne : cs ≠ []) (hquote : '\'' ∉ cs) :
    (Word.inQuotes cs hne hquote).text = cs :=
  List.flatMap_singleton _ _

theorem Word.quote_not_mem_text (w : Word) : '\'' ∉ w.text := by
  intro hmem
  obtain ⟨p, -, hp⟩ := List.mem_flatMap.mp hmem
  exact p.quote_not_mem_text hp

/-- The words that can be written are those that are not empty and hold no quote. -/
theorem exists_writing_iff {ws : List (List Char)} :
    (∃ w : Writing, w.words = ws) ↔ ∀ cs ∈ ws, cs ≠ [] ∧ '\'' ∉ cs := by
  constructor
  · rintro ⟨w, rfl⟩ cs hcs
    have hword : ∀ w : Word, w.text ≠ [] ∧ '\'' ∉ w.text :=
      fun w => ⟨w.ne_nil, w.quote_not_mem_text⟩
    induction w with
    | blank ws => cases hcs
    | last lead w =>
      obtain rfl := List.mem_singleton.mp hcs
      exact hword w
    | cons lead w sep rest ih =>
      rcases List.mem_cons.mp hcs with rfl | hrest
      · exact hword w
      · exact ih hrest
  · intro h
    induction ws with
    | nil => exact ⟨.blank ⟨[], fun c hc => absurd hc List.not_mem_nil⟩, rfl⟩
    | cons cs ws ih =>
      obtain ⟨rest, hrest⟩ := ih fun cs' hcs' => h cs' (List.mem_cons_of_mem _ hcs')
      obtain ⟨hne, hquote⟩ := h cs List.mem_cons_self
      refine ⟨.cons ⟨[], fun c hc => absurd hc List.not_mem_nil⟩ (.inQuotes cs hne hquote)
        ⟨' ', rfl⟩ rest, ?_⟩
      rw [Writing.words, Word.text_inQuotes, hrest]

/-! ### Reading them back -/

/-- The words of a state in which the line ends. -/
def SplitState.words (st : SplitState) : List (List Char) :=
  if st.cur.isEmpty then st.out else st.out ++ [st.cur]

section

variable (out : List (List Char)) (cur : List Char)

/-- White space ends the word before it, if there is one. -/
theorem push_white {c : Char} (hc : isWhitespace c = true) :
    (⟨out, cur, false⟩ : SplitState).push c = ⟨SplitState.words ⟨out, cur, false⟩, [], false⟩ := by
  have hquote : c ≠ '\'' := by
    rintro rfl
    exact absurd hc (by decide)
  rw [SplitState.push, if_neg Bool.false_ne_true, if_neg hquote, if_pos hc, SplitState.words]
  dsimp only
  by_cases hcur : cur.isEmpty = true
  · rw [if_pos hcur, if_pos hcur, List.isEmpty_iff.mp hcur]
  · rw [if_neg hcur, if_neg hcur]

theorem foldl_white {ws : List Char} (h : ∀ c ∈ ws, isWhitespace c = true) :
    ws.foldl SplitState.push ⟨out, [], false⟩ = ⟨out, [], false⟩ := by
  induction ws with
  | nil => rfl
  | cons c ws ih =>
    rw [List.foldl_cons, push_white out [] (h c List.mem_cons_self)]
    exact ih fun c' hc' => h c' (List.mem_cons_of_mem _ hc')

/-- Between quotes every character but a quote is kept. -/
theorem foldl_quoted {cs : List Char} (h : '\'' ∉ cs) :
    cs.foldl SplitState.push ⟨out, cur, true⟩ = ⟨out, cur ++ cs, true⟩ := by
  induction cs generalizing cur with
  | nil => rw [List.foldl_nil, List.append_nil]
  | cons c cs ih =>
    rw [List.mem_cons, not_or] at h
    rw [List.foldl_cons, SplitState.push, if_pos rfl, if_neg (Ne.symm h.1), ih _ h.2,
      List.append_assoc, List.singleton_append]

theorem foldl_plain {cs : List Char} (h : ∀ c ∈ cs, c ≠ '\'' ∧ isWhitespace c = false) :
    cs.foldl SplitState.push ⟨out, cur, false⟩ = ⟨out, cur ++ cs, false⟩ := by
  induction cs generalizing cur with
  | nil => rw [List.foldl_nil, List.append_nil]
  | cons c cs ih =>
    obtain ⟨hquote, hwhite⟩ := h c List.mem_cons_self
    rw [List.foldl_cons, SplitState.push, if_neg Bool.false_ne_true, if_neg hquote,
      if_neg (Bool.eq_false_iff.mp hwhite),
      ih _ fun c' hc' => h c' (List.mem_cons_of_mem _ hc'), List.append_assoc,
      List.singleton_append]

theorem foldl_piece (p : Piece) :
    p.written.foldl SplitState.push ⟨out, cur, false⟩ = ⟨out, cur ++ p.text, false⟩ := by
  cases p with
  | quoted cs h =>
    -- the first quote opens, and the last one closes
    show (cs ++ ['\'']).foldl SplitState.push ⟨out, cur, true⟩ = _
    rw [List.foldl_append, foldl_quoted out cur h]
    rfl
  | plain cs h => exact foldl_plain out cur h

/-- The pieces of a word run together. -/
theorem foldl_pieces (ps : List Piece) :
    (ps.flatMap Piece.written).foldl SplitState.push ⟨out, cur, false⟩ =
      ⟨out, cur ++ ps.flatMap Piece.text, false⟩ := by
  induction ps generalizing cur with
  | nil => rw [List.flatMap_nil, List.flatMap_nil, List.foldl_nil, List.append_nil]
  | cons p ps ih =>
    rw [List.flatMap_cons, List.flatMap_cons, List.foldl_append, foldl_piece, ih,
      List.append_assoc]

/-- A word behind white space is gathered whole. -/
theorem foldl_word (lead : White) (w : Word) :
    (lead.val ++ w.written).foldl SplitState.push ⟨out, [], false⟩ = ⟨out, w.text, false⟩ := by
  rw [List.foldl_append, foldl_white out lead.property, Word.written, foldl_pieces,
    List.nil_append, Word.text]

theorem words_of_text (w : Word) : SplitState.words ⟨out, w.text, false⟩ = out ++ [w.text] :=
  if_neg fun h => w.ne_nil (List.isEmpty_iff.mp h)

/-- No quote is open behind the line, and its words have been added. -/
theorem foldl_writing (w : Writing) :
    (w.line.foldl SplitState.push ⟨out, [], false⟩).inSingle = false ∧
      (w.line.foldl SplitState.push ⟨out, [], false⟩).words = out ++ w.words := by
  induction w generalizing out with
  | blank ws =>
    rw [Writing.line, foldl_white out ws.property, Writing.words, List.append_nil]
    exact ⟨rfl, rfl⟩
  | last lead w =>
    rw [Writing.line, foldl_word, words_of_text]
    exact ⟨rfl, rfl⟩
  | cons lead w sep rest ih =>
    -- the separator behind the word adds it to the words before it
    obtain ⟨hsingle, hwords⟩ := ih (out ++ [w.text])
    rw [Writing.line, List.foldl_append, foldl_word, List.foldl_cons,
      push_white out w.text sep.property, words_of_text]
    rw [List.append_assoc, List.singleton_append] at hwords
    exact ⟨hsingle, hwords⟩

end

/-- However words are written, the same words are read back. -/
theorem shellSplit_writing (w : Writing) : shellSplit w.line = .ok w.words := by
  obtain ⟨hsingle, hwords⟩ := foldl_writing [] w
  rw [shellSplit, hsingle, if_neg Bool.false_ne_true, ← SplitState.words, hwords, List.nil_append]

/-! ### Unterminated quotes -/

/-- A quote opens or closes, and nothing else does. -/
theorem inSingle_push (st : SplitState) (c : Char) :
    (st.push c).inSingle = if c = '\'' then !st.inSingle else st.inSingle := by
  rcases st with ⟨out, cur, inSingle⟩
  by_cases hc : c = '\''
  · subst hc
    cases inSingle with
    | true => rfl
    | false => rfl
  · rw [SplitState.push, if_neg hc, if_neg hc, if_neg hc]
    cases inSingle with
    | true => rfl
    | false =>
      -- white space and other characters alike
      rw [if_neg Bool.false_ne_true]
      split
      · split
        · rfl
        · rfl
      · rfl

/-- An even number of quotes leaves what was open open, and what was closed closed. -/
theorem inSingle_foldl (st : SplitState) (line : List Char) :
    (line.foldl SplitState.push st).inSingle = true ↔
      (st.inSingle = true ↔ Even (line.count '\'')) := by
  induction line generalizing st with
  | nil => simp
  | cons c line ih =>
    rw [List.foldl_cons, ih, inSingle_push]
    by_cases hc : c = '\''
    · -- one quote more turns both sides over
      subst hc
      rw [if_pos rfl, List.count_cons_self, Nat.even_add_one, Bool.not_eq_true']
      cases st.inSingle with
      | true => simp
      | false => simp
    · rw [if_neg hc, List.count_cons_of_ne hc]

/-- Quoting is undone: words that are not empty and hold no quote are read back, in whatever
pieces and with whatever white space they are written.  A line is refused exactly when the number
of its quotes is odd. -/
theorem shellSplit_undoes_quoting :
    (∀ w : Writing, shellSplit w.line = .ok w.words) ∧
      ∀ line, (∃ e, shellSplit line = .error e) ↔ Odd (line.count '\'') := by
  refine ⟨shellSplit_writing, fun line => ?_⟩
  have hparity : (line.foldl SplitState.push ⟨[], [], false⟩).inSingle = true ↔
      Odd (line.count '\'') := by
    rw [inSingle_foldl, ← Nat.not_even_iff_odd]
    simp
  rw [← hparity, shellSplit]
  by_cases hsingle : (line.foldl SplitState.push ⟨[], [], false⟩).inSingle = true
  · rw [if_pos hsingle]
    exact iff_of_true ⟨_, rfl⟩ hsingle
  · rw [if_neg hsingle]
    refine iff_of_false ?_ hsingle
    rintro ⟨e, he⟩
    cases he

end Relink
