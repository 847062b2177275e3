import QueryExpr.Text.CharClass

/-!
# Quoted text

Between single quotes, a quote is written twice and every other plain character
once; control characters other than the tab may not stand there (specification, 4.2).

* `double`: a body with its quotes doubled; `enclose` adds the outer quotes.
* `scan`: reads a body behind its opening quote and says how it ended.
* `scan_double_append`: the scan passes every plain body whole.
* `scan_double`: the scan gives back every plain body, and stops at its closing quote.
-/

namespace QueryExpr.Text.Quoted

/-- A body with every quote written twice. -/
def double : List Char → List Char
  | [] => []
  | c :: cs => if c = '\'' then '\'' :: '\'' :: double cs else c :: double cs

/-- A body between quotes. -/
def enclose (body : List Char) : List Char := '\'' :: (double body ++ ['\''])

/-- How a quoted body ends. -/
inductive Ending where
  /-- At its closing quote. -/
  | closed
  /-- At a character that may not stand between quotes. -/
  | stray (c : Char)
  /-- At the end of the text. -/
  | unclosed
  deriving DecidableEq, Repr

/-- What the scan of a quoted body gives. -/
structure Scan where
  /-- The body, with doubled quotes undone. -/
  body : List Char
  /-- The characters passed, with the closing quote or the stray character. -/
  read : List Char
  /-- The text behind them. -/
  rest : List Char
  ending : Ending
  deriving DecidableEq, Repr

/-- Adds the character `c`, written as `written`, in front of a scanned body. -/
def Scan.push (c : Char) (written : List Char) (s : Scan) : Scan :=
  { s with body := c :: s.body, read := written ++ s.read }

/-- Scans a body behind its opening quote (`scan_quoted`). -/
def scan : List Char → Scan
  | [] => ⟨[], [], [], .unclosed⟩
  | '\'' :: '\'' :: cs => (scan cs).push '\'' ['\'', '\'']
  | '\'' :: cs => ⟨[], ['\''], cs, .closed⟩
  | c :: cs => if isPlain c then (scan cs).push c [c] else ⟨[], [c], cs, .stray c⟩

/-! ## Scanning loses nothing and undoes doubling -/

theorem scan_read_append_rest (cs : List Char) : (scan cs).read ++ (scan cs).rest = cs := by
  fun_induction scan cs <;> simp_all [Scan.push]

/-- Plain characters, with quotes doubled, are read one after the other whatever follows. -/
theorem scan_double_append (body rest : List Char) (plain : ∀ c ∈ body, isPlain c = true) :
    scan (double body ++ rest) =
      { scan rest with
        body := body ++ (scan rest).body, read := double body ++ (scan rest).read } := by
  induction body with
  | nil => rfl
  | cons c body ih =>
    have hb := ih (fun d hd => plain d (List.mem_cons_of_mem _ hd))
    by_cases hc : c = '\''
    · subst hc
      simp only [double, if_true, List.cons_append, scan, hb]
      rfl
    · have hp := plain c List.mem_cons_self
      simp only [double, if_neg hc, List.cons_append]
      rw [scan]
      · simp [hp, hb, Scan.push]
      · exact fun _ h => absurd h hc
      · exact hc

theorem scan_double (body rest : List Char) (plain : ∀ c ∈ body, isPlain c = true)
    (behind : rest.head? ≠ some '\'') :
    scan (double body ++ '\'' :: rest) = ⟨body, double body ++ ['\''], rest, .closed⟩ := by
  have hclosing : scan ('\'' :: rest) = ⟨[], ['\''], rest, .closed⟩ := by
    cases rest with
    | nil => rfl
    | cons c rest =>
      have hc : c ≠ '\'' := by simpa using behind
      rw [scan]
      intro cs h
      exact hc (List.cons.inj h).1
  rw [scan_double_append body _ plain, hclosing, List.append_nil]

end QueryExpr.Text.Quoted
