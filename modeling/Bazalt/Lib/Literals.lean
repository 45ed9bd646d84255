import Mathlib.Tactic

/-!
# Quoted literals

In a text with literals, a delimiter opens a literal.  Inside of one, an escape character takes the
next character with it, two delimiters stand for one, and a single delimiter ends the literal.
What is quoted is read back, and it does not matter to the rest of the text what it is.
-/

namespace Bazalt.Lib

section

variable {α : Type*} [DecidableEq α]

/-- What `escape` and `delimiter` do, and what an escaped character denotes. -/
structure Quoting (α : Type*) where
  escape : α
  delimiter : α
  denotes : α → List α

inductive Token (α : Type*) where
  | char (c : α)
  | literal (value : List α)
  deriving DecidableEq, Repr

/-- A token without the contents of a literal. -/
def Token.outline : Token α → Token α
  | char c => .char c
  | literal _ => .literal []

namespace Quoting

variable (q : Quoting α)

/-- The rest of a literal after its opening delimiter: the value, and what comes after it. -/
def readBody : List α → Option (List α × List α)
  | [] => none
  | [x] => if x ≠ q.escape ∧ x = q.delimiter then some ([], []) else none
  | x :: y :: rest =>
      if x = q.escape then (readBody rest).map fun r ↦ (q.denotes y ++ r.1, r.2)
      else if x = q.delimiter then
        if y = q.delimiter then (readBody rest).map fun r ↦ (q.delimiter :: r.1, r.2)
        else some ([], y :: rest)
      else (readBody (y :: rest)).map fun r ↦ (x :: r.1, r.2)

def readLiteral : List α → Option (List α × List α)
  | [] => none
  | x :: rest => if x = q.delimiter then q.readBody rest else none

/-- The tokens of a text: outside of a literal, or inside with the value that was read. -/
def lexFrom : Option (List α) → List α → Option (List (Token α))
  | none, [] => some []
  | none, x :: rest =>
      if x = q.delimiter then lexFrom (some []) rest
      else (lexFrom none rest).map (.char x :: ·)
  | some _, [] => none
  | some value, [x] =>
      if x ≠ q.escape ∧ x = q.delimiter then some [.literal value] else none
  | some value, x :: y :: rest =>
      if x = q.escape then lexFrom (some (value ++ q.denotes y)) rest
      else if x = q.delimiter then
        if y = q.delimiter then lexFrom (some (value ++ [q.delimiter])) rest
        else (lexFrom none (y :: rest)).map (.literal value :: ·)
      else lexFrom (some (value ++ [x])) (y :: rest)

def lex (text : List α) : Option (List (Token α)) := q.lexFrom none text

/-- The tokens without the contents of the literals. -/
def outline (text : List α) : Option (List (Token α)) := (q.lex text).map (List.map Token.outline)

/-- A text with the escape character before every character that would end or change it. -/
def escaped (value : List α) : List α :=
  value.flatMap fun x ↦ if x = q.escape ∨ x = q.delimiter then [q.escape, x] else [x]

/-- The two special characters differ, and escaped they denote themselves. -/
structure Plain : Prop where
  ne : q.escape ≠ q.delimiter
  escape : q.denotes q.escape = [q.escape]
  delimiter : q.denotes q.delimiter = [q.delimiter]

variable {q}

theorem readBody_cons_of_ne {x : α} {rest : List α} (hescape : x ≠ q.escape)
    (hdelimiter : x ≠ q.delimiter) (hrest : rest ≠ []) :
    q.readBody (x :: rest) = (q.readBody rest).map fun r ↦ (x :: r.1, r.2) := by
  cases rest with
  | nil => exact absurd rfl hrest
  | cons y rest => rw [readBody, if_neg hescape, if_neg hdelimiter]

theorem readBody_delimiter (hq : q.Plain) {rest : List α} (hrest : rest.head? ≠ some q.delimiter) :
    q.readBody (q.delimiter :: rest) = some ([], rest) := by
  cases rest with
  | nil => exact if_pos ⟨hq.ne.symm, rfl⟩
  | cons y rest =>
      have hy : y ≠ q.delimiter := by simpa using hrest
      rw [readBody, if_neg hq.ne.symm, if_pos rfl, if_neg hy]

/-- Reading a quoted value gives the value back and leaves the rest. -/
theorem readBody_escaped (hq : q.Plain) (value : List α) {rest : List α}
    (hrest : rest.head? ≠ some q.delimiter) :
    q.readBody (q.escaped value ++ q.delimiter :: rest) = some (value, rest) := by
  induction value with
  | nil => exact readBody_delimiter hq hrest
  | cons x value ih =>
      rw [escaped, List.flatMap_cons, List.append_assoc, ← escaped]
      by_cases hx : x = q.escape ∨ x = q.delimiter
      · have hdenotes : q.denotes x = [x] := by
          rcases hx with rfl | rfl
          · exact hq.escape
          · exact hq.delimiter
        rw [if_pos hx, List.cons_append, List.cons_append, List.nil_append, readBody, if_pos rfl,
          ih, hdenotes]
        rfl
      · rw [not_or] at hx
        rw [if_neg (by tauto), List.singleton_append, readBody_cons_of_ne hx.1 hx.2 (by simp), ih]
        rfl

/-- The lexer reads a literal as `readBody` does. -/
theorem lexFrom_some (value text : List α) : q.lexFrom (some value) text =
    (q.readBody text).bind fun r ↦ (q.lexFrom none r.2).map (.literal (value ++ r.1) :: ·) := by
  induction text using readBody.induct q generalizing value with
  | case1 => rfl
  | case2 x h =>
      rw [lexFrom, readBody, if_pos h, if_pos h, Option.bind_some, List.append_nil]
      rfl
  | case3 x h =>
      rw [lexFrom, readBody, if_neg h, if_neg h]
      rfl
  | case4 y rest ih =>
      rw [lexFrom, readBody, if_pos rfl, if_pos rfl, ih, Option.bind_map]
      simp only [Function.comp_def, List.append_assoc]
  | case5 rest hne ih =>
      rw [lexFrom, readBody, if_neg hne, if_neg hne, if_pos rfl, if_pos rfl, if_pos rfl, if_pos rfl,
        ih, Option.bind_map]
      simp only [Function.comp_def, List.append_assoc, List.singleton_append]
  | case6 y rest hne hy =>
      rw [lexFrom, readBody, if_neg hne, if_neg hne, if_pos rfl, if_pos rfl, if_neg hy, if_neg hy,
        Option.bind_some, List.append_nil]
  | case7 x y rest hne hx ih =>
      rw [lexFrom, readBody, if_neg hne, if_neg hne, if_neg hx, if_neg hx, ih, Option.bind_map]
      simp only [Function.comp_def, List.append_assoc, List.singleton_append]

/-- A text goes on after another one, unless delimiters of both meet. -/
def Meets (q : Quoting α) (text rest : List α) : Prop :=
  text.getLast? = some q.delimiter ∧ rest.head? = some q.delimiter

omit [DecidableEq α] in
theorem not_meets_tail {x : α} {text rest : List α} (h : ¬ q.Meets (x :: text) rest) :
    ¬ q.Meets text rest := by
  cases text with
  | nil => simp [Meets]
  | cons y text => simpa [Meets] using h

theorem lexFrom_append {state : Option (List α)} {text rest : List α} {tokens : List (Token α)}
    (h : q.lexFrom state text = some tokens) (hmeets : ¬ q.Meets text rest) :
    q.lexFrom state (text ++ rest) = (q.lexFrom none rest).map (tokens ++ ·) := by
  induction state, text using lexFrom.induct q generalizing tokens with
  | case1 =>
      obtain rfl := Option.some.inj h
      simp
  | case2 text ih =>
      rw [lexFrom, if_pos rfl] at h
      rw [List.cons_append, lexFrom, if_pos rfl]
      exact ih h (not_meets_tail hmeets)
  | case3 x text hx ih =>
      rw [lexFrom, if_neg hx] at h
      obtain ⟨more, hmore, rfl⟩ := Option.map_eq_some_iff.mp h
      rw [List.cons_append, lexFrom, if_neg hx, ih hmore (not_meets_tail hmeets), Option.map_map]
      rfl
  | case4 value => cases h
  | case5 value x hx =>
      rw [lexFrom, if_pos hx] at h
      obtain rfl := Option.some.inj h
      obtain ⟨hne, rfl⟩ := hx
      cases rest with
      | nil =>
          rw [List.append_nil]
          exact if_pos ⟨hne, rfl⟩
      | cons y rest =>
          have hy : y ≠ q.delimiter := fun hy ↦ hmeets ⟨rfl, by rw [hy]; rfl⟩
          rw [List.singleton_append]
          conv_lhs => rw [lexFrom, if_neg hne, if_pos rfl, if_neg hy]
          rfl
  | case6 value x hx =>
      rw [lexFrom, if_neg hx] at h
      cases h
  | case7 value y text ih =>
      rw [lexFrom, if_pos rfl] at h
      rw [List.cons_append, List.cons_append, lexFrom, if_pos rfl]
      exact ih h (not_meets_tail (not_meets_tail hmeets))
  | case8 value text hne ih =>
      rw [lexFrom, if_neg hne, if_pos rfl, if_pos rfl] at h
      rw [List.cons_append, List.cons_append, lexFrom, if_neg hne, if_pos rfl, if_pos rfl]
      exact ih h (not_meets_tail (not_meets_tail hmeets))
  | case9 value y text hy hne ih =>
      rw [lexFrom, if_neg hne, if_pos rfl, if_neg hy] at h
      obtain ⟨more, hmore, rfl⟩ := Option.map_eq_some_iff.mp h
      have hrest := ih hmore (not_meets_tail hmeets)
      rw [List.cons_append] at hrest
      rw [List.cons_append, List.cons_append, lexFrom, if_neg hne, if_pos rfl, if_neg hy, hrest,
        Option.map_map]
      rfl
  | case10 value x y text hne hx ih =>
      rw [lexFrom, if_neg hne, if_neg hx] at h
      have hrest := ih h (not_meets_tail hmeets)
      rw [List.cons_append] at hrest
      rw [List.cons_append, List.cons_append, lexFrom, if_neg hne, if_neg hx, hrest]

theorem outline_append {text rest : List α} {tokens : List (Token α)}
    (h : q.outline text = some tokens) (hmeets : ¬ q.Meets text rest) :
    q.outline (text ++ rest) = (q.outline rest).map (tokens ++ ·) := by
  obtain ⟨read, hread, rfl⟩ := Option.map_eq_some_iff.mp h
  rw [outline, lex, lexFrom_append hread hmeets, outline, lex, Option.map_map, Option.map_map]
  congr 1
  funext more
  simp

/-- A text without escapes reads the same, whatever an escaped character denotes. -/
theorem lexFrom_congr (q q' : Quoting α) (hescape : q'.escape = q.escape)
    (hdelimiter : q'.delimiter = q.delimiter) {state : Option (List α)} {text : List α}
    (htext : q.escape ∉ text) : q'.lexFrom state text = q.lexFrom state text := by
  induction state, text using lexFrom.induct q with
  | case1 => rfl
  | case2 text ih =>
      rw [lexFrom, lexFrom, hdelimiter, if_pos rfl, if_pos rfl]
      exact ih fun hmem ↦ htext (List.mem_cons_of_mem _ hmem)
  | case3 x text hx ih =>
      rw [lexFrom, lexFrom, hdelimiter, if_neg hx, if_neg hx,
        ih fun hmem ↦ htext (List.mem_cons_of_mem _ hmem)]
  | case4 value => rfl
  | case5 value x hx => rw [lexFrom, lexFrom, hescape, hdelimiter]
  | case6 value x hx => rw [lexFrom, lexFrom, hescape, hdelimiter]
  | case7 value y text ih => exact absurd List.mem_cons_self htext
  | case8 value text hne ih =>
      simp only [lexFrom, hescape, hdelimiter, if_neg hne, if_true]
      exact ih fun hmem ↦ htext (List.mem_cons_of_mem _ (List.mem_cons_of_mem _ hmem))
  | case9 value y text hy hne ih =>
      have hrest := ih fun hmem ↦ htext (List.mem_cons_of_mem _ hmem)
      simp only [lexFrom, hdelimiter, if_neg hy] at hrest
      simp only [lexFrom, hescape, hdelimiter, if_neg hne, if_true, if_neg hy]
      rw [hrest]
  | case10 value x y text hne hx ih =>
      simp only [lexFrom, hescape, hdelimiter, if_neg hne, if_neg hx]
      exact ih fun hmem ↦ htext (List.mem_cons_of_mem _ hmem)

/-- A text as it is quoted. -/
def quoted (q : Quoting α) (value : List α) : List α :=
  q.delimiter :: (q.escaped value ++ [q.delimiter])

/-- The contents of a quoted value do not show. -/
theorem outline_quoted (hq : q.Plain) (value : List α) :
    q.outline (q.quoted value) = some [.literal []] := by
  rw [quoted, outline, lex, lexFrom, if_pos rfl, lexFrom_some, readBody_escaped hq value (by simp)]
  rfl

theorem readLiteral_quoted (hq : q.Plain) (value : List α) {rest : List α}
    (hrest : rest.head? ≠ some q.delimiter) :
    q.readLiteral (q.quoted value ++ rest) = some (value, rest) := by
  rw [quoted, List.cons_append, readLiteral, if_pos rfl, List.append_assoc, List.singleton_append,
    readBody_escaped hq value hrest]

/-! ## Texts that differ in their literals -/

/-- The texts can stand after any other, and differ in the contents of literals only. -/
structure Alike (q : Quoting α) (text text' : List α) : Prop where
  outline : ∃ tokens, q.outline text = some tokens ∧ q.outline text' = some tokens
  head : text.head? ≠ some q.delimiter
  head' : text'.head? ≠ some q.delimiter

variable {text text' rest rest' : List α}

theorem Alike.append (h : q.Alike text text') (hrest : q.Alike rest rest') :
    q.Alike (text ++ rest) (text' ++ rest') := by
  have happend : ∀ {a b : List α}, a.head? ≠ some q.delimiter → b.head? ≠ some q.delimiter →
      (a ++ b).head? ≠ some q.delimiter := by
    intro a b ha hb
    cases a with
    | nil => exact hb
    | cons x a => exact ha
  obtain ⟨tokens, htext, htext'⟩ := h.outline
  obtain ⟨more, hmore, hmore'⟩ := hrest.outline
  refine ⟨⟨tokens ++ more, ?_, ?_⟩, happend h.head hrest.head, happend h.head' hrest.head'⟩
  · rw [outline_append htext fun hmeets ↦ hrest.head hmeets.2, hmore]
    rfl
  · rw [outline_append htext' fun hmeets ↦ hrest.head' hmeets.2, hmore']
    rfl

theorem Alike.refl {tokens : List (Token α)} (h : q.outline text = some tokens)
    (hhead : text.head? ≠ some q.delimiter) : q.Alike text text :=
  ⟨⟨tokens, h, h⟩, hhead, hhead⟩

theorem alike_of_not_mem (h : q.delimiter ∉ text) : q.Alike text text := by
  have hlex : q.lex text = some (text.map .char) := by
    induction text with
    | nil => rfl
    | cons x text ih =>
        obtain ⟨hx, htext⟩ := not_or.mp (mt List.mem_cons.mpr h)
        have hrest := ih htext
        rw [lex] at hrest
        rw [lex, lexFrom, if_neg (Ne.symm hx), hrest]
        rfl
  refine .refl (by rw [outline, hlex]; rfl) fun hhead ↦ h ?_
  exact List.mem_of_mem_head? (Option.mem_def.mpr hhead)

/-- A quoted value after a text that does not end in a delimiter. -/
theorem Alike.quoted (hq : q.Plain) (h : q.Alike text text) (hne : text ≠ [])
    (hlast : text.getLast? ≠ some q.delimiter) (value value' : List α) :
    q.Alike (text ++ q.quoted value) (text ++ q.quoted value') := by
  obtain ⟨tokens, htext, -⟩ := h.outline
  have hhead : ∀ v, (text ++ v).head? ≠ some q.delimiter := fun v ↦ by
    rw [List.head?_append_of_ne_nil _ hne]
    exact h.head
  refine ⟨⟨tokens ++ [.literal []], ?_, ?_⟩, hhead _, hhead _⟩
  all_goals
    rw [outline_append htext fun hmeets ↦ hlast hmeets.1, outline_quoted hq]
    rfl

theorem Alike.intercalate {parts parts' : List (List α)} (h : q.Alike text text)
    (hparts : List.Forall₂ q.Alike parts parts') :
    q.Alike (text.intercalate parts) (text.intercalate parts') := by
  induction hparts with
  | nil => exact alike_of_not_mem (by simp)
  | cons hpart hrest ih =>
      cases hrest with
      | nil => simpa using hpart
      | cons hnext hmore =>
          rw [List.intercalate_cons_cons, List.intercalate_cons_cons]
          exact (hpart.append h).append ih

end Quoting

end

end Bazalt.Lib
