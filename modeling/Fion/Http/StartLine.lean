import Fion.Http.Request

/-!
# Start lines

`parseStartLine` reads three words with `>>`, which skips blanks of every kind in
front of a word and stops at the first blank behind it.  So a word is found wherever
it stands (`extract_eq_iff`), and the constructor accepts a start line exactly when it
is method, target and version with blanks between them, in whatever number and of
whatever kind (`Request.accepts_iff`).  Blanks in front are skipped, and what follows
a blank behind the version is never looked at.

`StrictStartLine` is the form that the words have in a request that is written with
single spaces.  It is accepted, and it is not the only form.
-/

namespace Fion.Http

open Cpp (Bytes Exn ascii extract isspace)

/-! ## Words -/

/-- A text of blanks only. -/
def Blanks (s : Bytes) : Prop := ∀ b ∈ s, isspace b = true

/-- A word: some text without blanks. -/
structure Word (s : Bytes) : Prop where
  ne : s ≠ []
  solid : ∀ b ∈ s, isspace b = false

theorem extract_blanks {lead : Bytes} (hlead : Blanks lead) (s : Bytes) :
    extract (lead ++ s) = extract s := by
  induction lead with
  | nil => rfl
  | cons b lead ih =>
      obtain ⟨hb, hrest⟩ := List.forall_mem_cons.mp hlead
      rw [List.cons_append, Cpp.extract_cons_of_isspace hb, ih hrest]

/-- A word is read exactly where blanks stand in front of it, and a blank or nothing
behind it. -/
theorem extract_eq_iff {s w rest : Bytes} (hne : w ≠ []) :
    extract s = (w, rest) ↔
      ∃ lead, s = lead ++ w ++ rest ∧ Blanks lead ∧ Word w ∧
        ∀ b ∈ rest.head?, isspace b = true := by
  constructor
  · intro h
    obtain ⟨hw, hrest⟩ := Prod.mk.inj h
    refine ⟨s.takeWhile isspace, ?_, fun b hb => List.mem_takeWhile_imp hb, ⟨hne, ?_⟩, ?_⟩
    · rw [← hw, ← hrest, List.append_assoc, List.takeWhile_append_dropWhile,
        List.takeWhile_append_dropWhile]
    · rintro b hb
      rw [← hw] at hb
      simpa using List.mem_takeWhile_imp hb
    · rintro b hb
      rw [← hrest] at hb
      have hhead := List.head?_dropWhile_not (!isspace ·) (s.dropWhile isspace)
      rw [Option.mem_def.mp hb] at hhead
      simpa using hhead
  · rintro ⟨lead, rfl, hlead, hw, hrest⟩
    rw [List.append_assoc, extract_blanks hlead, Cpp.extract_word hw.ne hw.solid hrest]

/-- Behind a word that was read, the next word is found behind at least one blank. -/
theorem extract_next {s w rest : Bytes} (hne : w ≠ []) (h : extract s = (w, rest))
    (hs : ∀ b ∈ s.head?, isspace b = true) :
    ∃ gap, s = gap ++ w ++ rest ∧ gap ≠ [] ∧ Blanks gap ∧ Word w ∧
      ∀ b ∈ rest.head?, isspace b = true := by
  obtain ⟨gap, hsplit, hgap, hw, hrest⟩ := (extract_eq_iff hne).mp h
  refine ⟨gap, hsplit, ?_, hgap, hw, hrest⟩
  rintro rfl
  cases w with
  | nil => exact hne rfl
  | cons b w =>
      have hblank := hs b (by rw [hsplit]; rfl)
      rw [hw.solid b List.mem_cons_self] at hblank
      cases hblank

/-! ## The two forms of a start line -/

/-- Three words that are accepted. -/
structure AcceptedWords (rawMethod rawURL rawVersion : Bytes) : Prop where
  method : ∃ method : Method, rawMethod = method.name
  target : Word rawURL
  url : ∃ url, URL.parse rawURL = .ok url
  version : ∃ version, stringToVersion rawVersion = .ok version

/-- Accepted words with one space between them and nothing else. -/
def StrictStartLine (line : Bytes) : Prop :=
  ∃ rawMethod rawURL rawVersion, AcceptedWords rawMethod rawURL rawVersion ∧
    line = rawMethod ++ ascii " " ++ rawURL ++ ascii " " ++ rawVersion

/-- Accepted words with blanks between them, and possibly in front; behind them the
line ends, or a blank and anything follows. -/
def SpacedStartLine (line : Bytes) : Prop :=
  ∃ lead rawMethod gap rawURL gap' rawVersion tail,
    AcceptedWords rawMethod rawURL rawVersion ∧
      line = lead ++ rawMethod ++ gap ++ rawURL ++ gap' ++ rawVersion ++ tail ∧
      Blanks lead ∧ (gap ≠ [] ∧ Blanks gap) ∧ (gap' ≠ [] ∧ Blanks gap') ∧
      ∀ b ∈ tail.head?, isspace b = true

theorem AcceptedWords.words {rawMethod rawURL rawVersion : Bytes}
    (h : AcceptedWords rawMethod rawURL rawVersion) : Word rawMethod ∧ Word rawVersion := by
  obtain ⟨method, rfl⟩ := h.method
  obtain ⟨version, hversion⟩ := h.version
  exact ⟨⟨method.name_word.1, method.name_word.2⟩,
    ⟨(not_isspace_of_stringToVersion hversion).1, (not_isspace_of_stringToVersion hversion).2⟩⟩

/-- A blank at the front of a gap stands at the front of what follows, too. -/
theorem isspace_head?_append {gap : Bytes} (hgap : gap ≠ [] ∧ Blanks gap) (s : Bytes) :
    ∀ b ∈ (gap ++ s).head?, isspace b = true := by
  rintro b hb
  rw [List.head?_append_of_ne_nil _ hgap.1] at hb
  exact hgap.2 b (List.mem_of_mem_head? hb)

/-- The words of a spaced line are what is read. -/
theorem acceptedStartLine_of_spaced {line : Bytes} (h : SpacedStartLine line) :
    AcceptedStartLine line := by
  obtain ⟨lead, rawMethod, gap, rawURL, gap', rawVersion, tail, hwords, rfl, hlead, hgap, hgap',
    htail⟩ := h
  obtain ⟨hm, hv⟩ := hwords.words
  have h₁ : extract (lead ++ rawMethod ++ gap ++ rawURL ++ gap' ++ rawVersion ++ tail) =
      (rawMethod, gap ++ (rawURL ++ (gap' ++ (rawVersion ++ tail)))) :=
    (extract_eq_iff hm.ne).mpr
      ⟨lead, by simp only [List.append_assoc], hlead, hm, isspace_head?_append hgap _⟩
  have h₂ : extract (gap ++ (rawURL ++ (gap' ++ (rawVersion ++ tail)))) =
      (rawURL, gap' ++ (rawVersion ++ tail)) :=
    (extract_eq_iff hwords.target.ne).mpr
      ⟨gap, by simp only [List.append_assoc], hgap.2, hwords.target, isspace_head?_append hgap' _⟩
  have h₃ : extract (gap' ++ (rawVersion ++ tail)) = (rawVersion, tail) :=
    (extract_eq_iff hv.ne).mpr ⟨gap', by rw [List.append_assoc], hgap'.2, hv, htail⟩
  constructor
  · rw [h₁]; exact hwords.method
  · rw [h₁, h₂]; exact hwords.url
  · rw [h₁, h₂, h₃]; exact hwords.version

/-- What is read stands in the line as spaced words. -/
theorem spaced_of_acceptedStartLine {line : Bytes} (h : AcceptedStartLine line) :
    SpacedStartLine line := by
  obtain ⟨⟨method, hmethod⟩, ⟨url, hurl⟩, ⟨version, hversion⟩⟩ := h
  cases h₁ : extract line with
  | mk rawMethod rest =>
      rw [h₁] at hmethod hurl hversion
      cases h₂ : extract rest with
      | mk rawURL rest' =>
          rw [h₂] at hurl hversion
          cases h₃ : extract rest' with
          | mk rawVersion tail =>
              rw [h₃] at hversion
              simp only at hmethod hurl hversion
              have hne : rawURL ≠ [] := by
                rintro rfl
                cases hurl
              have hmne : rawMethod ≠ [] := by
                rw [hmethod]
                exact method.name_word.1
              obtain ⟨lead, hsplit, hlead, -, hrest⟩ := (extract_eq_iff hmne).mp h₁
              obtain ⟨gap, hsplit', hgap, hblank, htarget, hrest'⟩ := extract_next hne h₂ hrest
              obtain ⟨gap', hsplit'', hgap', hblank', -, htail⟩ :=
                extract_next (not_isspace_of_stringToVersion hversion).1 h₃ hrest'
              refine ⟨lead, rawMethod, gap, rawURL, gap', rawVersion, tail,
                ⟨⟨method, hmethod⟩, htarget, ⟨url, hurl⟩, ⟨version, hversion⟩⟩, ?_, hlead,
                ⟨hgap, hblank⟩, ⟨hgap', hblank'⟩, htail⟩
              rw [hsplit, hsplit', hsplit'']
              simp only [List.append_assoc]

/-- Single spaces are blanks. -/
theorem StrictStartLine.spaced {line : Bytes} (h : StrictStartLine line) :
    SpacedStartLine line := by
  obtain ⟨rawMethod, rawURL, rawVersion, hwords, rfl⟩ := h
  have hgap : ascii " " ≠ [] ∧ Blanks (ascii " ") := ⟨by decide, List.all_eq_true.mp (by decide)⟩
  exact ⟨[], rawMethod, ascii " ", rawURL, ascii " ", rawVersion, [], hwords, by simp, by
    simp [Blanks], hgap, hgap, by simp⟩

/-! ## What the constructor accepts -/

/-- The constructor accepts exactly the spaced start lines, which the strict ones
are. -/
theorem Request.accepts_iff (rawStartLine rawHeaders rawBody : Bytes) :
    ((∃ request, Request.make rawStartLine rawHeaders rawBody = .ok request) ↔
      SpacedStartLine rawStartLine) ∧
    (StrictStartLine rawStartLine → SpacedStartLine rawStartLine) := by
  rw [Request.exists_make_iff]
  exact ⟨⟨spaced_of_acceptedStartLine, acceptedStartLine_of_spaced⟩, StrictStartLine.spaced⟩

/-- Blanks in front, other blanks between the words and text behind them are accepted,
too, in a line without a line end. -/
theorem Request.accepts_not_strict :
    ¬ ∀ rawStartLine rawHeaders rawBody : Bytes, ¬ ascii "\r\n" <:+: rawStartLine →
      ((∃ request, Request.make rawStartLine rawHeaders rawBody = .ok request) ↔
        StrictStartLine rawStartLine) := by
  intro h
  have hurl : ∃ url, URL.parse (ascii "/") = .ok url := ⟨_, rfl⟩
  have haccepted : AcceptedStartLine (ascii " GET\t/  HTTP/1.1 junk") :=
    ⟨⟨.get, by decide⟩, hurl, ⟨.http11, by decide⟩⟩
  obtain ⟨rawMethod, rawURL, rawVersion, hwords, hline⟩ :=
    (h _ [] [] (by decide)).mp (Request.exists_make_iff.mpr haccepted)
  -- the line begins with a blank, a method name does not
  cases rawMethod with
  | nil => exact hwords.words.1.ne rfl
  | cons b rawMethod =>
      have hb : b = 32 := (List.cons.inj hline).1.symm
      have hsolid := hwords.words.1.solid b List.mem_cons_self
      rw [hb] at hsolid
      exact absurd hsolid (by decide)

end Fion.Http
