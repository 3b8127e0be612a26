import Dpll.ClauseStore
import Dpll.Proofs.DimacsReading
import Dpll.Verdict

namespace Dpll

theorem toList_byteArray (bs : ByteArray) : bs.toList = bs.data.toList := by
  -- The loop holds the bytes before `i`, from the last on.
  have h (i : Nat) (found : List UInt8) :
      ByteArray.toList.loop bs i found = found.reverse ++ bs.data.toList.drop i := by
    fun_induction ByteArray.toList.loop bs i found with
    | case1 i found hi ih =>
      have hi' : i < bs.data.toList.length := hi
      rw [ih, List.drop_eq_getElem_cons hi', List.reverse_cons, List.append_assoc]
      simp [ByteArray.get!, hi]
    | case2 i found hi =>
      have hi' : bs.data.toList.length ≤ i := Nat.le_of_not_lt hi
      rw [List.drop_of_length_le hi', List.append_nil]
  exact h 0 []

theorem Decimal.value_concat (ds : List Nat) (d : Nat) : value (ds ++ [d]) = value ds * 10 + d := by
  rw [value, List.foldl_append]
  rfl

namespace Dimacs

variable {n : Nat} {l : Literal} {c : Clause} {cs : List Clause} {h : Header} {ls : List Bytes}
  {line text ending : Bytes}

def bytes (s : String) : Bytes := s.toUTF8.toList

theorem bytes_append (s t : String) : bytes (s ++ t) = bytes s ++ bytes t := by
  simp [bytes, toList_byteArray, String.toUTF8, String.toByteArray_append]

theorem bytes_ofList (cs : List Char) :
    bytes (.ofList cs) = cs.flatMap String.utf8EncodeChar := by
  simp [bytes, toList_byteArray, String.toUTF8, List.utf8Encode]

theorem bytes_eq_map {s : String} (h : s.toList.all (·.utf8Size == 1)) :
    bytes s = s.toList.map byte := by
  rw [← String.ofList_toList (s := s), bytes_ofList, String.toList_ofList, List.map_eq_flatMap,
    List.flatMap_def, List.flatMap_def]
  congr 1
  apply List.map_congr_left
  intro c hc
  exact String.utf8EncodeChar_eq_singleton (eq_of_beq (List.all_eq_true.1 h c hc))

theorem isDigit_digitChar (h : n < 10) :
    isDigit (byte n.digitChar) ∧ digitValue (byte n.digitChar) = n := by
  revert n
  decide

theorem numeral_toDigits (n : Nat) : Numeral n ((Nat.toDigits 10 n).map byte) := by
  induction n using Nat.strongRecOn with
  | _ n ih =>
    rw [Nat.toDigits_eq_if (by decide)]
    split
    next hn =>
      obtain ⟨hd, hv⟩ := isDigit_digitChar hn
      exact ⟨List.cons_ne_nil _ _, by simpa using hd, by simpa [Decimal.value] using hv⟩
    next hn =>
      have hq := ih (n / 10) (by omega)
      obtain ⟨hd, hv⟩ := isDigit_digitChar (Nat.mod_lt n (by decide : 10 > 0))
      rw [List.map_append, List.map_singleton]
      constructor
      case ne_nil => simp
      case digits =>
        intro b hb
        rcases List.mem_append.1 hb with hb | hb
        · exact hq.digits b hb
        · exact List.mem_singleton.1 hb ▸ hd
      case value =>
        rw [List.map_append, List.map_singleton, Decimal.value_concat, hq.value, hv]
        omega

theorem bytes_toString_nat (n : Nat) : bytes (toString n) = (Nat.toDigits 10 n).map byte := by
  have hn : (toString n).toList = Nat.toDigits 10 n := String.toList_ofList
  rw [← hn]
  apply bytes_eq_map
  rw [List.all_eq_true]
  intro c hc
  rw [hn] at hc
  have hd := Nat.isDigit_of_mem_toDigits (by decide) (by decide) hc
  rw [Char.isDigit, Bool.and_eq_true, decide_eq_true_iff, decide_eq_true_iff] at hd
  exact beq_iff_eq.2 (Char.utf8Size_eq_one_iff.2 (UInt32.le_trans hd.2 (by decide)))

theorem bytes_toString_int (l : Int) :
    bytes (toString l) = minus (decide (l < 0)) ++ (Nat.toDigits 10 l.natAbs).map byte := by
  cases l with
  | ofNat n => exact bytes_toString_nat n
  | negSucc n =>
    have h : toString (Int.negSucc n) = "-" ++ toString (n + 1) := rfl
    rw [h, bytes_append, bytes_toString_nat, bytes_eq_map (by decide),
      decide_eq_true (Int.negSucc_lt_zero n)]
    rfl

def Printable (c : Clause) : Prop := ∀ l ∈ c, l ≠ 0 ∧ -2 ^ 31 ≤ l ∧ l ≤ 2 ^ 31 - 1

instance : DecidablePred Printable :=
  fun c ↦ inferInstanceAs (Decidable (∀ l ∈ c, l ≠ 0 ∧ -2 ^ 31 ≤ l ∧ l ≤ 2 ^ 31 - 1))

theorem line_cons (l : Literal) (c : Clause) :
    Clause.line (l :: c) = toString l ++ (" " ++ Clause.line c) := by
  simp [Clause.line, String.join_cons, String.append_assoc]

theorem bytes_line_nil : bytes (Clause.line []) = [byte '0'] := bytes_eq_map (by decide)

theorem clauseLine_line (hc : Printable c) (he : LineEnd ending) :
    ClauseLine c (bytes c.line ++ ending) := by
  induction c with
  | nil =>
    rw [bytes_line_nil]
    exact .zero false (List.cons_ne_nil _ _) (by simp) he
  | cons l c ih =>
    obtain ⟨⟨hl₀, hl⟩, hc⟩ := List.forall_mem_cons.1 hc
    rw [line_cons, bytes_append, bytes_append, bytes_toString_int, bytes_eq_map (s := " ") (by decide)]
    have h := ClauseLine.literal hl₀ hl (numeral_toDigits _) (ih hc)
    simpa using h

theorem bytes_headerLine (n m : Nat) :
    bytes (Header.line ⟨n, m⟩) = "p cnf ".toList.map byte ++
      ((Nat.toDigits 10 n).map byte ++ byte ' ' :: (Nat.toDigits 10 m).map byte) := by
  have hline : Header.line ⟨n, m⟩ = "p cnf " ++ (toString n ++ (" " ++ toString m)) := by
    simp only [Header.line, String.append_assoc]
    rfl
  rw [hline, bytes_append, bytes_append, bytes_append, bytes_toString_nat, bytes_toString_nat,
    bytes_eq_map (s := "p cnf ") (by decide), bytes_eq_map (s := " ") (by decide)]
  rfl

theorem headerLine_line {m : Nat} (hn : n ≤ 2 ^ 31 - 1) (hm : m < 2 ^ 64) (he : LineEnd ending) :
    HeaderLine ⟨n, m⟩ (bytes (Header.line ⟨n, m⟩) ++ ending) := by
  have h := HeaderLine.counts (numeral_toDigits n) (numeral_toDigits m) he hn
    (Nat.le_sub_one_of_lt hm)
  rw [bytes_headerLine]
  simpa using h

inductive LineBreak : Bytes → Prop
  | newline : LineBreak [newline]
  | carriageNewline : LineBreak [byte '\r', Dimacs.newline]

/-- The texts which have these lines, and comments before any of them. -/
inductive Layout : List Bytes → Bytes → Prop
  | nil : Layout [] []
  | last {line ending : Bytes} (he : LineEnd ending) : Layout [line] (line ++ ending)
  | line {line ending text : Bytes} {ls : List Bytes} (hb : LineBreak ending) (h : Layout ls text) :
    Layout (line :: ls) (line ++ (ending ++ text))
  | comment {words ending text : Bytes} {ls : List Bytes} (hn : newline ∉ words)
    (hb : LineBreak ending) (h : Layout ls text) :
    Layout ls (byte 'c' :: (words ++ (ending ++ text)))

theorem LineBreak.lineEnd (h : LineBreak ending) : LineEnd ending := by
  cases h with
  | newline => exact .newline
  | carriageNewline => exact .carriageNewline

theorem lines_append (hn : newline ∉ line) (text : Bytes) :
    lines (line ++ newline :: text) = (line ++ [newline]) :: lines text := by
  induction line with
  | nil => simp [lines]
  | cons b line ih =>
    obtain ⟨hb, hn⟩ := not_or.1 (mt List.mem_cons.2 hn)
    rw [List.cons_append, lines, if_neg (Ne.symm hb), ih hn]
    rfl

theorem lines_of_not_mem (hne : line ≠ []) (hn : newline ∉ line) : lines line = [line] := by
  induction line with
  | nil => exact absurd rfl hne
  | cons b line ih =>
    obtain ⟨hb, hn⟩ := not_or.1 (mt List.mem_cons.2 hn)
    rw [lines, if_neg (Ne.symm hb)]
    by_cases h : line = []
    · rw [h]
      rfl
    · rw [ih h hn]

theorem not_mem_carriage (hn : newline ∉ line) : newline ∉ line ++ [byte '\r'] := by
  simpa [hn] using (by decide : newline ≠ byte '\r')

theorem lines_lineBreak (hb : LineBreak ending) (hn : newline ∉ line) (text : Bytes) :
    lines (line ++ (ending ++ text)) = (line ++ ending) :: lines text := by
  cases hb with
  | newline => exact lines_append hn text
  | carriageNewline => simpa using lines_append (not_mem_carriage hn) text

theorem lines_lineEnd (he : LineEnd ending) (hne : line ≠ []) (hn : newline ∉ line) :
    lines (line ++ ending) = [line ++ ending] := by
  cases he with
  | none => simpa using lines_of_not_mem hne hn
  | newline => exact lines_append hn []
  | carriage => exact lines_of_not_mem (by simp) (not_mem_carriage hn)
  | carriageNewline => simpa [lines] using lines_append (not_mem_carriage hn) []

theorem lines_comment {words : Bytes} (hb : LineBreak ending) (hn : newline ∉ words)
    (text : Bytes) : ∃ line, Comment line ∧
      lines (byte 'c' :: (words ++ (ending ++ text))) = line :: lines text := by
  have hn' : newline ∉ byte 'c' :: words := by
    simpa [hn] using (by decide : newline ≠ byte 'c')
  have hl := lines_lineBreak hb hn' text
  exact ⟨byte 'c' :: (words ++ ending), rfl, hl⟩

theorem Numeral.not_mem (h : Numeral n text) : newline ∉ text := by
  intro hn
  exact absurd (h.digits _ hn) (by decide)

theorem not_mem_line (c : Clause) : newline ∉ bytes c.line := by
  induction c with
  | nil =>
    rw [bytes_line_nil]
    decide
  | cons l c ih =>
    have hm : newline ∉ minus (decide (l < 0)) := by
      cases decide (l < 0) <;> decide
    have hd := (numeral_toDigits l.natAbs).not_mem
    have hs : newline ∉ bytes " " := by
      rw [bytes_eq_map (by decide)]
      decide
    rw [line_cons, bytes_append, bytes_append, bytes_toString_int]
    simp only [List.mem_append, hm, hd, hs, ih, or_self, not_false_eq_true]

theorem not_mem_headerLine (n m : Nat) : newline ∉ bytes (Header.line ⟨n, m⟩) := by
  have hp : newline ∉ "p cnf ".toList.map byte := by decide
  have hs : newline ≠ byte ' ' := by decide
  rw [bytes_headerLine]
  simp only [List.mem_append, List.mem_cons, hp, hs, (numeral_toDigits _).not_mem, or_self,
    not_false_eq_true]

theorem bytes_line_ne_nil (hc : Printable c) : bytes c.line ≠ [] := by
  obtain ⟨b, hb, -⟩ := (clauseLine_line hc .none).head?
  rw [List.append_nil] at hb
  intro hn
  rw [hn] at hb
  cases hb

theorem bytes_headerLine_ne_nil (n m : Nat) : bytes (Header.line ⟨n, m⟩) ≠ [] := by
  rw [bytes_headerLine]
  exact List.cons_ne_nil _ _

theorem Layout.body (h : Layout (cs.map fun c ↦ bytes c.line) text)
    (hcs : ∀ c ∈ cs, Printable c) : Body cs (lines text) := by
  generalize hls : (cs.map fun c ↦ bytes c.line) = ls at h
  induction h generalizing cs with
  | nil =>
    rw [List.map_eq_nil_iff.1 hls]
    exact .nil
  | @last line ending he =>
    obtain ⟨c, _, rfl, rfl, hnil⟩ := List.map_eq_cons_iff.1 hls
    have hc := hcs c (.head _)
    rw [List.map_eq_nil_iff.1 hnil, lines_lineEnd he (bytes_line_ne_nil hc) (not_mem_line c)]
    exact .clause (clauseLine_line hc he) .nil
  | @line line ending text ls hb h ih =>
    obtain ⟨c, cs, rfl, rfl, hrest⟩ := List.map_eq_cons_iff.1 hls
    obtain ⟨hc, hcs⟩ := List.forall_mem_cons.1 hcs
    rw [lines_lineBreak hb (not_mem_line c)]
    exact .clause (clauseLine_line hc hb.lineEnd) (ih hcs hrest)
  | comment hn hb h ih =>
    obtain ⟨line, hc, hlines⟩ := lines_comment hb hn _
    rw [hlines]
    exact .comment hc (ih hcs hls)

theorem Document.comment (h' : Document h cs ls) (hc : Comment line) : Document h cs (line :: ls) := by
  obtain ⟨hcs, hh, hb, ht⟩ := h'
  exact .parts (List.forall_mem_cons.2 ⟨hc, hcs⟩) hh hb ht

theorem document_of_body (hh : HeaderLine h line) (hb : Body cs ls) : Document h cs (line :: ls) := by
  have hd : Document h cs ([] ++ line :: (ls ++ [])) := .parts nofun hh hb nofun
  rwa [List.append_nil] at hd

theorem Layout.document {m : Nat} (hn : n ≤ 2 ^ 31 - 1) (hm : m < 2 ^ 64)
    (hcs : ∀ c ∈ cs, Printable c)
    (h : Layout (bytes (Header.line ⟨n, m⟩) :: cs.map fun c ↦ bytes c.line) text) :
    Document ⟨n, m⟩ cs (lines text) := by
  generalize hls : (bytes (Header.line ⟨n, m⟩) :: cs.map fun c ↦ bytes c.line) = ls at h
  induction h with
  | nil => cases hls
  | @last line ending he =>
    obtain ⟨rfl, hnil⟩ := List.cons.inj hls
    rw [List.map_eq_nil_iff.1 hnil,
      lines_lineEnd he (bytes_headerLine_ne_nil n m) (not_mem_headerLine n m)]
    exact document_of_body (headerLine_line hn hm he) .nil
  | @line line ending text ls hb h ih =>
    obtain ⟨rfl, rfl⟩ := List.cons.inj hls
    rw [lines_lineBreak hb (not_mem_headerLine n m)]
    exact document_of_body (headerLine_line hn hm hb.lineEnd) (h.body hcs)
  | comment hn hb h ih =>
    obtain ⟨line, hc, hlines⟩ := lines_comment hb hn _
    rw [hlines]
    exact (ih hls).comment hc

theorem layout_text (cs : List Clause) :
    Layout (cs.map fun c ↦ bytes c.line) (bytes (Formula.text cs)) := by
  induction cs with
  | nil =>
    have hnil : bytes (Formula.text []) = [] := bytes_eq_map (by decide)
    rw [hnil]
    exact .nil
  | cons c cs ih =>
    have htext : Formula.text (c :: cs) = c.line ++ ("\n" ++ Formula.text cs) := by
      simp [Formula.text, String.join_cons, String.append_assoc]
    rw [htext, bytes_append, bytes_append, bytes_eq_map (s := "\n") (by decide)]
    exact .line .newline ih

theorem readClause_of_clauseLine (h : ClauseLine c line) (hn : lines line = [line]) :
    (ofBytes line).readClause.1 = .ok (some c) := by
  have hb := before_ofBytes line
  rw [hn] at hb
  obtain ⟨d', hd, -⟩ := hb.nextLine_cons
  rw [readClause_of_neither hb.unfinished hd h.not_comment h.not_cutoff, clause_eq_ok_iff.2 h]
  rfl

theorem readClause_line (hc : Printable c) (he : LineEnd ending) :
    (ofBytes (bytes c.line ++ ending)).readClause.1 = .ok (some c) := by
  have hl := clauseLine_line hc he
  exact readClause_of_clauseLine hl (lines_lineEnd he (bytes_line_ne_nil hc) (not_mem_line c))

theorem modelLiterals_eq {bs : List Bool} (h : bs.length = n + 1) :
    Response.modelLiterals bs =
      (List.range n).map fun i ↦ Literal.ofAtom (i + 1) (bs.getD (i + 1) false) := by
  apply List.ext_getElem
  · simp [Response.modelLiterals, h]
  · intro i hi hi'
    have hi : i < n := by simpa using hi'
    simp [Response.modelLiterals, h, hi, Nat.add_comm]

theorem ofAtom_mem_word {a : Nat} (ha : a ≤ 2 ^ 31 - 1) (b : Bool) :
    -2 ^ 31 ≤ Literal.ofAtom a b ∧ Literal.ofAtom a b ≤ 2 ^ 31 - 1 := by
  have hl (l : Int) (hl : l = a ∨ l = -a) : -2 ^ 31 ≤ l ∧ l ≤ 2 ^ 31 - 1 := by omega
  cases b
  · exact hl _ (.inr rfl)
  · exact hl _ (.inl rfl)

theorem printable_modelLiterals {bs : List Bool} (hn : n ≤ 2 ^ 31 - 1) (h : bs.length = n + 1) :
    Printable (Response.modelLiterals bs) := by
  rw [modelLiterals_eq h, Printable]
  simp only [List.forall_mem_map, List.mem_range]
  intro i hi
  exact ⟨Literal.ofAtom_ne_zero (Nat.succ_ne_zero i) _,
    ofAtom_mem_word (Nat.le_trans hi hn) _⟩

/-- A printed formula is read again, with the counts of its header. So it is if lines end with a
carriage return before the newline, the last line with neither, or comments stand before lines. A
printed model is read again as well. -/
theorem readFormula_printed {m : Nat} {s : ClauseStore} (hn : n ≤ 2 ^ 31 - 1) (hm : m < 2 ^ 64)
    (hs : ∀ c ∈ s.formula, Printable c) :
    readFormula (bytes ((⟨n, m⟩ : Header).line ++ "\n" ++ s.text)) = (s.formula, .ok ⟨n, m⟩) ∧
    (∀ text, Layout (bytes (Header.line ⟨n, m⟩) :: s.formula.map fun c ↦ bytes c.line) text →
      readFormula text = (s.formula, .ok ⟨n, m⟩)) ∧
    ∀ (v : Verdict) (bs : List Bool), bs.length = n + 1 →
      ∃ line, Response.model? ⟨v, bs⟩ = some line ∧
        ∀ ending, LineEnd ending → (ofBytes (bytes line ++ ending)).readClause.1 =
          .ok (some ((List.range n).map fun i ↦
            Literal.ofAtom (i + 1) (bs.getD (i + 1) false))) := by
  have hread {text : Bytes}
      (h : Layout (bytes (Header.line ⟨n, m⟩) :: s.formula.map fun c ↦ bytes c.line) text) :
      readFormula text = (s.formula, .ok ⟨n, m⟩) :=
    readFormula_of_document (h.document hn hm hs)
  refine ⟨hread ?_, fun text ↦ hread, ?_⟩
  · rw [String.append_assoc, bytes_append, bytes_append, bytes_eq_map (s := "\n") (by decide)]
    exact .line .newline (layout_text s.formula)
  · intro v bs hbs
    refine ⟨_, rfl, fun ending he ↦ ?_⟩
    rw [← modelLiterals_eq hbs]
    exact readClause_line (printable_modelLiterals hn hbs) he

theorem readFormula_printed_three :
    readFormula (bytes "p cnf 3 2\n1 -2147483648 0\n0\n") =
      ([[1, -2147483648], []], .ok ⟨3, 2⟩) ∧
    readFormula (bytes "c a\np cnf 3 2\r\nc b\r\n1 -2147483648 0\n0") =
      ([[1, -2147483648], []], .ok ⟨3, 2⟩) ∧
    (ofBytes (bytes "1 -2 3 0\r\n")).readClause.1 = .ok (some [1, -2, 3]) := by
  obtain ⟨hp, hl, hm⟩ := readFormula_printed (n := 3) (m := 2)
    (s := { clauses := #[[1, -2147483648], []] }) (by decide) (by decide) (by decide)
  obtain ⟨line, hline, hr⟩ := hm .satisfied [false, true, false, true] rfl
  obtain rfl : "1 -2 3 0" = line := Option.some.inj hline
  refine ⟨hp, hl _ ?_, ?_⟩
  · have hheader : bytes (Header.line ⟨3, 2⟩) = "p cnf 3 2".toList.map byte :=
      bytes_eq_map (by decide)
    have hfirst : bytes (Clause.line [1, -2147483648]) = "1 -2147483648 0".toList.map byte :=
      bytes_eq_map (by decide)
    have hsecond : bytes (Clause.line []) = "0".toList.map byte := bytes_eq_map (by decide)
    simp only [ClauseStore.formula, List.map_cons, List.map_nil, hfirst, hsecond]
    rw [hheader, bytes_eq_map (by decide)]
    have ha : newline ∉ " a".toList.map byte := by decide
    have hb : newline ∉ " b".toList.map byte := by decide
    have h₁ : Layout ["0".toList.map byte] _ := .last .none
    have h₂ : Layout ["1 -2147483648 0".toList.map byte, _] _ := .line .newline h₁
    have h₃ : Layout ["p cnf 3 2".toList.map byte, _, _] _ :=
      .line .carriageNewline (h₂.comment hb .carriageNewline)
    exact h₃.comment ha .newline
  · have h := hr _ .carriageNewline
    rw [bytes_eq_map (by decide)] at h ⊢
    exact h

end Dimacs

end Dpll
