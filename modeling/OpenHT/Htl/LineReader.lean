import OpenHT.Htl.Token
import OpenHT.Lib.CInt

/-!
# The line reader of the preprocessors

`GetLineFromFile` of `CPreProcess` in htl and in Htfe has one code. It copies bytes from a read buffer to the
line until it comes to a newline; at the end of the buffer it reads the next bytes of the file there. It counts
the bytes it has passed in `m_fileRdOffset`, an `int`.

* `Chunk`, `Reader`: what one `read` gives, and the file with its buffer.
* `getLineFromFile`: one call; `Returns`: the lines of a file, one call after another.
* `takeLine`, `dropLine`, `rawLines`: a text cut after its newlines.
* `returns_lines_iff`: however the file is cut into chunks, its lines are those of its text, and the offsets are
  those where the lines start, just if the file has fewer than 2^31 bytes.
-/

namespace OpenHT.Htl.LineReader

open OpenHT.CInt

/-- `RDBUF_SIZE` -/
def rdBufSize : ℕ := 4096

/-- What `read` puts in the buffer when it is not at the end of the file. -/
structure Chunk where
  bytes : Text
  nonempty : bytes ≠ []
  fits : bytes.length ≤ rdBufSize

/-- The file and its read buffer. -/
structure Reader where
  /-- What the next calls of `read` give: `none` is an error, and the end of the list is the end of the file. -/
  reads : List (Option Chunk)
  /-- The bytes from `m_pRdBufPos` to `m_pRdBufEnd`. -/
  buf : Text
  /-- `m_fileRdOffset` -/
  offset : Int

/-- How a call ends. -/
inductive LineResult
  /-- `return true`, with `lineBuf` -/
  | line (lineBuf : Text) (r : Reader)
  /-- `return false` -/
  | eof (r : Reader)
  /-- "File read error" -/
  | error
  /-- `m_fileRdOffset += 1` goes beyond the largest `int`. -/
  | overflow

/-- An `int` after `+=` of a difference of two pointers. -/
def addPtrdiff (x : Int) (n : ℕ) : Int := IntType.int32.wrap (x + n)

namespace Reader

/-- The loop that fills an empty buffer, and whether it did not return. -/
def fill (r : Reader) : Bool × Reader :=
  if r.buf = [] then
    match r.reads with
    | some c :: reads => (true, { r with reads := reads, buf := c.bytes })
    | none :: reads => (false, { r with reads := reads })
    | [] => (false, r)
  else (true, r)

end Reader

/-- The local variables of the copy loop. -/
structure CopyLoop where
  /-- The bytes from `pPos` to `pEnd`. -/
  left : Text
  /-- The bytes from `pInitPos` to `pPos`. -/
  scanned : Text
  lineBuf : Text
  offset : Int

/-- The copy loop up to a newline or to the end of the buffer. -/
def copyBuf : Text → Text → Text → Int → CopyLoop
  | [], scanned, lineBuf, offset => ⟨[], scanned, lineBuf, offset⟩
  | c :: cs, scanned, lineBuf, offset =>
    if c = '\n' then ⟨c :: cs, scanned, lineBuf, offset⟩
    else if c = '\r' then copyBuf cs [] (lineBuf ++ scanned) (addPtrdiff offset (scanned.length + 1))
    else copyBuf cs (scanned ++ [c]) lineBuf offset

/-- The copy loop with its reads; `none` is "File read error". -/
def copyLoop : List (Option Chunk) → Text → Text → Text → Int → Option (CopyLoop × List (Option Chunk))
  | reads, buf, scanned, lineBuf, offset =>
    let l := copyBuf buf scanned lineBuf offset
    if l.left ≠ [] then some (l, reads)
    else
      match reads with
      | [] => some (⟨[], [], l.lineBuf ++ l.scanned, addPtrdiff l.offset l.scanned.length⟩, [])
      | none :: _ => none
      | some c :: reads =>
        copyLoop reads c.bytes [] (l.lineBuf ++ l.scanned) (addPtrdiff l.offset l.scanned.length)

attribute [local simp] copyLoop

/-- What follows the copy loop. -/
def CopyLoop.finish (l : CopyLoop) (reads : List (Option Chunk)) : LineResult :=
  let offset := if l.scanned ≠ [] then addPtrdiff l.offset l.scanned.length else l.offset
  let lineBuf := l.lineBuf ++ l.scanned
  match l.left with
  | '\n' :: cs =>
    if IntType.int32.InRange (offset + 1) then .line lineBuf ⟨reads, cs, offset + 1⟩ else .overflow
  | left => .line lineBuf ⟨reads, left, offset⟩

/-- `GetLineFromFile`, where `lineBuf` is the line before if `bAppendLine` is set. -/
def getLineFromFile (r : Reader) (lineBuf : Text) (bAppendLine : Bool) : LineResult :=
  match r.fill with
  | (false, r) => .eof r
  | (true, r) =>
    match copyLoop r.reads r.buf [] (if bAppendLine then lineBuf else []) r.offset with
    | some (l, reads) => l.finish reads
    | none => .error

/-- **The lines of a file**, each with `m_fileRdOffset` after its call. -/
inductive Returns : Reader → List (Text × Int) → Prop
  | eof {r r' : Reader} (h : getLineFromFile r [] false = .eof r') : Returns r []
  | line {r r' : Reader} {lineBuf : Text} {ls : List (Text × Int)}
    (h : getLineFromFile r [] false = .line lineBuf r') (hs : Returns r' ls) : Returns r ((lineBuf, r'.offset) :: ls)

/-- A file gives one list of lines. -/
theorem Returns.unique {r : Reader} {ls ls' : List (Text × Int)} (h : Returns r ls) (h' : Returns r ls') : ls = ls' := by
  induction h generalizing ls' with
  | eof h =>
    cases h' with
    | eof _ => rfl
    | line h₁ _ => cases h.symm.trans h₁
  | line h _ ih =>
    cases h' with
    | eof h₁ => cases h.symm.trans h₁
    | line h₁ hs =>
      cases h.symm.trans h₁
      rw [ih hs]

/-! ## Lines of a text -/

/-- A text up to its first newline, with it. -/
def takeLine : Text → Text
  | [] => []
  | c :: cs => if c = '\n' then [c] else c :: takeLine cs

attribute [local simp] takeLine

/-- What follows the first newline. -/
def dropLine : Text → Text
  | [] => []
  | c :: cs => if c = '\n' then cs else dropLine cs

attribute [local simp] dropLine

/-- A text cut after its newlines. -/
def rawLines : Text → List Text
  | [] => []
  | c :: cs =>
    if c = '\n' then [c] :: rawLines cs
    else
      match rawLines cs with
      | [] => [[c]]
      | l :: ls => (c :: l) :: ls

/-- A line without its newline and its carriage returns. -/
def clean (l : Text) : Text := l.filter fun c => c ≠ '\n' && c ≠ '\r'

/-- The lines, each with the offset behind it. -/
def withOffsets : Int → List Text → List (Text × Int)
  | _, [] => []
  | offset, l :: ls => (clean l, offset + l.length) :: withOffsets (offset + l.length) ls

theorem takeLine_append_dropLine (t : Text) : takeLine t ++ dropLine t = t := by
  induction t with
  | nil => rfl
  | cons c cs ih =>
    unfold takeLine dropLine
    split
    · rfl
    · rw [List.cons_append, ih]

theorem takeLine_ne_nil {t : Text} (h : t ≠ []) : takeLine t ≠ [] := by
  cases t with
  | nil => exact absurd rfl h
  | cons c cs =>
    unfold takeLine
    split <;> exact List.cons_ne_nil _ _

theorem dropLine_length_lt {t : Text} (h : t ≠ []) : (dropLine t).length < t.length := by
  have hlen := congrArg List.length (takeLine_append_dropLine t)
  have hpos := List.length_pos_iff.2 (takeLine_ne_nil h)
  rw [List.length_append] at hlen
  omega

/-- **The lines of a text** are its first line and those of the rest. -/
theorem rawLines_eq {t : Text} (h : t ≠ []) : rawLines t = takeLine t :: rawLines (dropLine t) := by
  induction t with
  | nil => exact absurd rfl h
  | cons c cs ih =>
    rw [rawLines, takeLine, dropLine]
    by_cases hc : c = '\n'
    · rw [if_pos hc, if_pos hc, if_pos hc]
    · rw [if_neg hc, if_neg hc, if_neg hc]
      by_cases hcs : cs = []
      · rw [hcs]
        rfl
      · rw [ih hcs]

/-- **Nothing is lost**: the lines of a text make up the text. -/
theorem rawLines_flatten (t : Text) : (rawLines t).flatten = t := by
  induction h : t.length using Nat.strongRecOn generalizing t with
  | ind n ih =>
    by_cases ht : t = []
    · rw [ht]
      rfl
    · have hlt := dropLine_length_lt ht
      rw [rawLines_eq ht, List.flatten_cons, ih _ (h ▸ hlt) _ rfl, takeLine_append_dropLine]

/-- A first line that ends in the first of two texts. -/
theorem line_append_of_mem {a : Text} (h : '\n' ∈ a) (b : Text) :
    takeLine (a ++ b) = takeLine a ∧ dropLine (a ++ b) = dropLine a ++ b := by
  induction a with
  | nil => cases h
  | cons c cs ih =>
    rw [List.cons_append, takeLine, takeLine, dropLine, dropLine]
    by_cases hc : c = '\n'
    · rw [if_pos hc, if_pos hc, if_pos hc, if_pos hc]
      exact ⟨rfl, rfl⟩
    · have hcs : '\n' ∈ cs := (List.mem_cons.1 h).resolve_left fun h => hc h.symm
      obtain ⟨htake, hdrop⟩ := ih hcs
      rw [if_neg hc, if_neg hc, if_neg hc, if_neg hc, htake, hdrop]
      exact ⟨rfl, rfl⟩

/-- A first line that starts with all of the first text. -/
theorem line_append_of_not_mem {a : Text} (h : '\n' ∉ a) (b : Text) :
    takeLine (a ++ b) = a ++ takeLine b ∧ dropLine (a ++ b) = dropLine b := by
  induction a with
  | nil => exact ⟨rfl, rfl⟩
  | cons c cs ih =>
    obtain ⟨hc, hcs⟩ := not_or.1 fun hmem => h (List.mem_cons.2 hmem)
    obtain ⟨htake, hdrop⟩ := ih hcs
    rw [List.cons_append, takeLine, dropLine, if_neg fun h => hc h.symm, if_neg fun h => hc h.symm, htake, hdrop]
    exact ⟨rfl, rfl⟩

theorem takeLine_of_not_mem {t : Text} (h : '\n' ∉ t) : takeLine t = t ∧ dropLine t = [] := by
  obtain ⟨htake, hdrop⟩ := line_append_of_not_mem h []
  rw [List.append_nil] at htake hdrop
  rw [htake, hdrop]
  exact ⟨List.append_nil t, rfl⟩

theorem clean_append (a b : Text) : clean (a ++ b) = clean a ++ clean b := List.filter_append _ _

/-! ## The copy loop -/

section

variable {buf scanned lineBuf : Text} {offset : Int}

theorem addPtrdiff_eq {n : ℕ} (h0 : 0 ≤ offset) (h : offset + n < 2147483648) :
    addPtrdiff offset n = offset + n := by
  apply IntType.wrap_of_inRange
  rw [IntType.inRange_int32]
  omega

/-- What the copy loop has done with a text that it has come through up to the end of a line. -/
structure Copied (l : CopyLoop) (text scanned lineBuf : Text) (offset : Int) : Prop where
  copied : l.lineBuf ++ l.scanned = lineBuf ++ scanned ++ clean (takeLine text)
  nonneg : 0 ≤ l.offset
  counted : l.offset + l.scanned.length + (takeLine l.left).length = offset + scanned.length + (takeLine text).length

theorem copyBuf_spec (buf scanned lineBuf : Text) (h0 : 0 ≤ offset) (hlt : offset + scanned.length + (takeLine buf).length < 2147483648) :
    Copied (copyBuf buf scanned lineBuf offset) buf scanned lineBuf offset ∧
      (copyBuf buf scanned lineBuf offset).left = if '\n' ∈ buf then '\n' :: dropLine buf else [] := by
  induction buf generalizing scanned lineBuf offset with
  | nil => exact ⟨⟨(List.append_nil _).symm, h0, rfl⟩, rfl⟩
  | cons c cs ih =>
    rw [copyBuf]
    by_cases hc : c = '\n'
    · obtain rfl := hc
      rw [if_pos rfl, if_pos List.mem_cons_self]
      exact ⟨⟨(List.append_nil _).symm, h0, rfl⟩, rfl⟩
    · have htake : takeLine (c :: cs) = c :: takeLine cs := if_neg hc
      have hdrop : dropLine (c :: cs) = dropLine cs := if_neg hc
      have hmem : '\n' ∈ c :: cs ↔ '\n' ∈ cs := by
        rw [List.mem_cons]
        exact or_iff_right fun h => hc h.symm
      have hlen : (takeLine (c :: cs)).length = (takeLine cs).length + 1 := by rw [htake, List.length_cons]
      rw [if_neg hc, hdrop]
      simp only [hmem]
      by_cases hcr : c = '\r'
      · -- what was scanned goes to the line, and the carriage return is left out
        have hadd : addPtrdiff offset (scanned.length + 1) = offset + scanned.length + 1 := by
          rw [addPtrdiff_eq h0 (by omega)]
          omega
        have hclean : clean (takeLine (c :: cs)) = clean (takeLine cs) := by
          rw [htake, hcr]
          rfl
        rw [if_pos hcr, hadd]
        have hnil : ([] : Text).length = 0 := rfl
        obtain ⟨⟨hcopied, hnonneg, hcounted⟩, hleft⟩ :=
          @ih (offset + scanned.length + 1) [] (lineBuf ++ scanned) (by omega) (by omega)
        refine ⟨⟨?_, hnonneg, by omega⟩, hleft⟩
        rw [hcopied, hclean, List.append_nil]
      · have hclean : clean (takeLine (c :: cs)) = c :: clean (takeLine cs) := by
          rw [htake]
          exact List.filter_cons_of_pos (by simp [hc, hcr])
        have hone : (scanned ++ [c]).length = scanned.length + 1 := List.length_append
        rw [if_neg hcr]
        obtain ⟨⟨hcopied, hnonneg, hcounted⟩, hleft⟩ :=
          @ih offset (scanned ++ [c]) lineBuf h0 (by omega)
        refine ⟨⟨?_, hnonneg, by omega⟩, hleft⟩
        rw [hcopied, hclean, ← List.append_assoc, List.append_assoc, List.singleton_append]

/-- The bytes of chunks. -/
def content (chunks : List Chunk) : Text := chunks.flatMap Chunk.bytes

/-- **The copy loop** goes to the end of the first line, over as many chunks as that takes. -/
theorem copyLoop_spec (buf scanned lineBuf : Text) (chunks : List Chunk) (h0 : 0 ≤ offset)
    (hlt : offset + scanned.length + (takeLine (buf ++ content chunks)).length < 2147483648) :
    ∃ l chunks', copyLoop (chunks.map some) buf scanned lineBuf offset = some (l, chunks'.map some) ∧
      Copied l (buf ++ content chunks) scanned lineBuf offset ∧
      (l.left = [] ∧ chunks' = [] ∧ dropLine (buf ++ content chunks) = [] ∨
        ∃ cs, l.left = '\n' :: cs ∧ dropLine (buf ++ content chunks) = cs ++ content chunks') := by
  induction chunks generalizing buf scanned lineBuf offset with
  | nil =>
    have hnil : content [] = [] := rfl
    rw [hnil, List.append_nil] at hlt ⊢
    obtain ⟨hcopied, hleft⟩ := copyBuf_spec buf scanned lineBuf h0 hlt
    rw [List.map_nil, copyLoop]
    by_cases hmem : '\n' ∈ buf
    · rw [if_pos hmem] at hleft
      refine ⟨_, [], if_pos (by rw [hleft]; exact List.cons_ne_nil _ _), hcopied, .inr ⟨_, hleft, ?_⟩⟩
      rw [hnil, List.append_nil]
    · rw [if_neg hmem] at hleft
      obtain ⟨htake, hdrop⟩ := takeLine_of_not_mem hmem
      have hstop : ¬(copyBuf buf scanned lineBuf offset).left ≠ [] := not_not_intro hleft
      obtain ⟨htext, hnonneg, hcounted⟩ := hcopied
      have hzero : (takeLine (copyBuf buf scanned lineBuf offset).left).length = 0 := by rw [hleft]; rfl
      have hadd := addPtrdiff_eq (n := (copyBuf buf scanned lineBuf offset).scanned.length) hnonneg (by omega)
      refine ⟨_, [], if_neg hstop, ⟨?_, ?_, ?_⟩, .inl ⟨rfl, rfl, hdrop⟩⟩
      · rw [List.append_nil]
        exact htext
      · simp only [hadd]
        omega
      · have hnil' : (takeLine []).length = 0 ∧ ([] : Text).length = 0 := ⟨rfl, rfl⟩
        simp only [hadd]
        omega
  | cons c chunks ih =>
    have hcontent : content (c :: chunks) = c.bytes ++ content chunks := rfl
    rw [hcontent] at hlt ⊢
    rw [List.map_cons, copyLoop]
    by_cases hmem : '\n' ∈ buf
    · obtain ⟨htake, hdrop⟩ := line_append_of_mem hmem (c.bytes ++ content chunks)
      rw [htake] at hlt
      obtain ⟨⟨htext, hnonneg, hcounted⟩, hleft⟩ := copyBuf_spec buf scanned lineBuf h0 hlt
      rw [if_pos hmem] at hleft
      refine ⟨_, c :: chunks, if_pos (by rw [hleft]; exact List.cons_ne_nil _ _), ⟨?_, hnonneg, ?_⟩,
        .inr ⟨_, hleft, ?_⟩⟩
      · rw [htake, htext]
      · rw [htake, hcounted]
      · rw [hdrop, hcontent]
    · obtain ⟨htake, hdrop⟩ := line_append_of_not_mem hmem (c.bytes ++ content chunks)
      obtain ⟨hself, _⟩ := takeLine_of_not_mem hmem
      rw [htake, List.length_append] at hlt
      obtain ⟨⟨htext, hnonneg, hcounted⟩, hleft⟩ :=
        copyBuf_spec buf scanned lineBuf h0 (by rw [hself]; omega)
      rw [if_neg hmem] at hleft
      have hstop : ¬(copyBuf buf scanned lineBuf offset).left ≠ [] := not_not_intro hleft
      have hzero : (takeLine (copyBuf buf scanned lineBuf offset).left).length = 0 := by rw [hleft]; rfl
      rw [hself] at htext hcounted
      have hadd := addPtrdiff_eq (n := (copyBuf buf scanned lineBuf offset).scanned.length) hnonneg (by omega)
      have hnil : ([] : Text).length = 0 := rfl
      obtain ⟨l, chunks', hrun, ⟨htext', hnonneg', hcounted'⟩, hends⟩ :=
        @ih (addPtrdiff (copyBuf buf scanned lineBuf offset).offset (copyBuf buf scanned lineBuf offset).scanned.length)
          c.bytes [] ((copyBuf buf scanned lineBuf offset).lineBuf ++ (copyBuf buf scanned lineBuf offset).scanned)
          (by omega) (by omega)
      refine ⟨l, chunks', (if_neg hstop).trans hrun, ⟨?_, hnonneg', ?_⟩, ?_⟩
      · rw [htext', htext, htake, clean_append, List.append_nil, List.append_assoc]
      · rw [hcounted', htake, List.length_append]
        omega
      · rw [hdrop]
        exact hends

end

/-! ## One call -/

/-- The reader has the rest of a file before it, without read errors. -/
def Reader.Holds (r : Reader) (text : Text) : Prop :=
  ∃ chunks, r.reads = chunks.map some ∧ text = r.buf ++ content chunks

theorem getLineFromFile_eof {r : Reader} (h : r.Holds []) : getLineFromFile r [] false = .eof r := by
  obtain ⟨chunks, hreads, htext⟩ := h
  obtain ⟨hbuf, hcontent⟩ := List.append_eq_nil_iff.1 htext.symm
  have hfill : r.fill = (false, r) := by
    unfold Reader.fill
    rw [if_pos hbuf, hreads]
    cases chunks with
    | nil => rfl
    | cons c chunks =>
      have hbytes : c.bytes = [] := (List.append_eq_nil_iff.1 hcontent).1
      exact absurd hbytes c.nonempty
  unfold getLineFromFile
  rw [hfill]

/-- A filled buffer. -/
theorem fill_spec {r : Reader} {text : Text} (h : r.Holds text) (hne : text ≠ []) :
    ∃ r', r.fill = (true, r') ∧ r'.Holds text ∧ r'.offset = r.offset := by
  obtain ⟨chunks, hreads, htext⟩ := h
  unfold Reader.fill
  by_cases hbuf : r.buf = []
  · rw [if_pos hbuf, hreads]
    cases chunks with
    | nil =>
      rw [hbuf] at htext
      exact absurd htext hne
    | cons c chunks =>
      rw [hbuf, List.nil_append] at htext
      exact ⟨_, rfl, ⟨chunks, rfl, htext⟩, rfl⟩
  · rw [if_neg hbuf]
    exact ⟨r, rfl, ⟨chunks, hreads, htext⟩, rfl⟩

/-- **One call** returns the first line of the rest and leaves what follows it. -/
theorem getLineFromFile_line {r : Reader} {text : Text} (h : r.Holds text) (hne : text ≠ []) (h0 : 0 ≤ r.offset)
    (hlt : r.offset + (takeLine text).length < 2147483648) :
    ∃ r', getLineFromFile r [] false = .line (clean (takeLine text)) r' ∧ r'.Holds (dropLine text) ∧
      r'.offset = r.offset + (takeLine text).length := by
  obtain ⟨r₁, hfill, ⟨chunks, hreads, rfl⟩, hoffset⟩ := fill_spec h hne
  rw [← hoffset] at h0 hlt ⊢
  have hnil : ([] : Text).length = 0 := rfl
  obtain ⟨l, chunks', hcopy, ⟨hcopied, hnonneg, hcounted⟩, hends⟩ :=
    copyLoop_spec r₁.buf [] [] chunks h0 (by omega)
  have hcall : getLineFromFile r [] false = l.finish (chunks'.map some) := by
    unfold getLineFromFile
    rw [hfill]
    simp only [hreads, Bool.false_eq_true, if_false, hcopy]
  have hadd : (if l.scanned ≠ [] then addPtrdiff l.offset l.scanned.length else l.offset) =
      l.offset + l.scanned.length := by
    by_cases hscanned : l.scanned = []
    · rw [if_neg (not_not_intro hscanned), hscanned, hnil]
      omega
    · rw [if_pos hscanned, addPtrdiff_eq hnonneg (by omega)]
  rw [List.append_nil, List.nil_append] at hcopied
  rw [hcall]
  unfold CopyLoop.finish
  rw [hadd, hcopied]
  rcases hends with ⟨hleft, rfl, hdrop⟩ | ⟨cs, hleft, hdrop⟩
  · have hzero : (takeLine l.left).length = 0 := by rw [hleft]; rfl
    rw [hleft, hdrop]
    refine ⟨_, rfl, ⟨[], rfl, rfl⟩, ?_⟩
    simp only
    omega
  · have hone : (takeLine l.left).length = 1 := by rw [hleft]; rfl
    have hrange : IntType.int32.InRange (l.offset + l.scanned.length + 1) := by
      rw [IntType.inRange_int32]
      omega
    rw [hleft, hdrop]
    refine ⟨_, if_pos hrange, ⟨chunks', rfl, rfl⟩, ?_⟩
    simp only
    omega

/-! ## All lines -/

/-- `m_pRdBufPos = m_pRdBufEnd = ""` and `m_fileRdOffset = 0`, before the first call. -/
def start (chunks : List Chunk) : Reader := ⟨chunks.map some, [], 0⟩

theorem returns_of_holds {r : Reader} {text : Text} (h : r.Holds text) (h0 : 0 ≤ r.offset)
    (hlt : r.offset + text.length < 2147483648) : Returns r (withOffsets r.offset (rawLines text)) := by
  induction hn : text.length using Nat.strongRecOn generalizing r text with
  | ind n ih =>
    by_cases hne : text = []
    · rw [hne] at h ⊢
      exact .eof (getLineFromFile_eof h)
    · have hlen := congrArg List.length (takeLine_append_dropLine text)
      rw [List.length_append] at hlen
      obtain ⟨r', hcall, hholds, hoffset⟩ := getLineFromFile_line h hne h0 (by omega)
      have hshort := dropLine_length_lt hne
      have hrest := ih _ (by omega) hholds (by omega) (by omega) rfl
      rw [rawLines_eq hne, withOffsets, ← hoffset]
      exact .line hcall hrest

theorem copyBuf_inRange {buf scanned lineBuf : Text} {offset : Int} (h : IntType.int32.InRange offset) :
    IntType.int32.InRange (copyBuf buf scanned lineBuf offset).offset := by
  induction buf generalizing scanned lineBuf offset with
  | nil => exact h
  | cons c cs ih =>
    rw [copyBuf]
    split
    · exact h
    · split
      · exact ih (IntType.wrap_inRange _ _)
      · exact ih h

theorem copyLoop_inRange {reads reads' : List (Option Chunk)} {buf scanned lineBuf : Text} {offset : Int}
    {l : CopyLoop} (h : IntType.int32.InRange offset)
    (hrun : copyLoop reads buf scanned lineBuf offset = some (l, reads')) : IntType.int32.InRange l.offset := by
  induction reads generalizing buf scanned lineBuf offset with
  | nil =>
    rw [copyLoop] at hrun
    split at hrun
    · obtain ⟨rfl, -⟩ := Prod.mk.inj (Option.some.inj hrun)
      exact copyBuf_inRange h
    · obtain ⟨rfl, -⟩ := Prod.mk.inj (Option.some.inj hrun)
      exact IntType.wrap_inRange _ _
  | cons c reads ih =>
    cases c with
    | none =>
      rw [copyLoop] at hrun
      split at hrun
      · obtain ⟨rfl, -⟩ := Prod.mk.inj (Option.some.inj hrun)
        exact copyBuf_inRange h
      · cases hrun
    | some c =>
      rw [copyLoop] at hrun
      split at hrun
      · obtain ⟨rfl, -⟩ := Prod.mk.inj (Option.some.inj hrun)
        exact copyBuf_inRange h
      · exact ih (IntType.wrap_inRange _ _) hrun

theorem CopyLoop.finish_inRange {l : CopyLoop} {reads : List (Option Chunk)} {r : Reader} {t : Text}
    (h : IntType.int32.InRange l.offset) (hrun : l.finish reads = .line t r) : IntType.int32.InRange r.offset := by
  have hoffset : IntType.int32.InRange
      (if l.scanned ≠ [] then addPtrdiff l.offset l.scanned.length else l.offset) := by
    split
    · exact IntType.wrap_inRange _ _
    · exact h
  unfold CopyLoop.finish at hrun
  generalize (if l.scanned ≠ [] then addPtrdiff l.offset l.scanned.length else l.offset) = offset at hoffset hrun
  simp only at hrun
  split at hrun
  · split at hrun
    · rename_i hrange
      obtain ⟨-, rfl⟩ := LineResult.line.inj hrun
      exact hrange
    · cases hrun
  · obtain ⟨-, rfl⟩ := LineResult.line.inj hrun
    exact hoffset

/-- **`m_fileRdOffset` is an `int`.** -/
theorem getLineFromFile_inRange {r r' : Reader} {lineBuf t : Text} {b : Bool} (h : IntType.int32.InRange r.offset)
    (hcall : getLineFromFile r lineBuf b = .line t r') : IntType.int32.InRange r'.offset := by
  have hfill : r.fill.2.offset = r.offset := by
    unfold Reader.fill
    split
    · split <;> rfl
    · rfl
  unfold getLineFromFile at hcall
  split at hcall
  · cases hcall
  · rename_i r₁ heq
    rw [heq] at hfill
    rw [← hfill] at h
    split at hcall
    · rename_i l reads hcopy
      exact l.finish_inRange (copyLoop_inRange h hcopy) hcall
    · cases hcall

theorem Returns.inRange {r : Reader} {ls : List (Text × Int)} (h : Returns r ls)
    (hr : IntType.int32.InRange r.offset) : ∀ p ∈ ls, IntType.int32.InRange p.2 := by
  induction h with
  | eof _ =>
    intro p hp
    cases hp
  | line hcall _ ih =>
    have hr' := getLineFromFile_inRange hr hcall
    intro p hp
    rcases List.mem_cons.1 hp with rfl | hp
    · exact hr'
    · exact ih hr' p hp

/-- The offset behind the last line. -/
theorem mem_withOffsets {ls : List Text} (h : ls ≠ []) (offset : Int) :
    ∃ t, (t, offset + (ls.flatten.length : Int)) ∈ withOffsets offset ls := by
  induction ls generalizing offset with
  | nil => exact absurd rfl h
  | cons l ls ih =>
    rw [withOffsets, List.flatten_cons, List.length_append, Int.natCast_add, ← Int.add_assoc]
    by_cases hls : ls = []
    · have hzero : ((([] : List Text).flatten).length : Int) = 0 := rfl
      rw [hls, hzero, Int.add_zero]
      exact ⟨_, List.mem_cons_self⟩
    · obtain ⟨t, ht⟩ := ih hls (offset + l.length)
      exact ⟨t, List.mem_cons_of_mem _ ht⟩

/-- An `int` does not count more bytes. -/
theorem length_lt_of_returns {chunks : List Chunk}
    (h : Returns (start chunks) (withOffsets 0 (rawLines (content chunks)))) : (content chunks).length < 2147483648 := by
  by_cases hne : content chunks = []
  · rw [hne]
    decide
  · have hlines : rawLines (content chunks) ≠ [] := by
      rw [rawLines_eq hne]
      exact List.cons_ne_nil _ _
    have hzero : IntType.int32.InRange 0 := by decide
    obtain ⟨t, ht⟩ := mem_withOffsets hlines 0
    have hrange := h.inRange hzero _ ht
    rw [rawLines_flatten, IntType.inRange_int32] at hrange
    simp only at hrange
    omega

/-- **However a file is cut into chunks**, its lines are those of its text without carriage returns, and
`m_fileRdOffset` is where the next line starts, just if the file has fewer than 2^31 bytes. -/
theorem returns_lines_iff (chunks : List Chunk) :
    Returns (start chunks) (withOffsets 0 (rawLines (content chunks))) ↔ (content chunks).length < 2147483648 := by
  constructor
  · exact length_lt_of_returns
  · intro h
    have hholds : (start chunks).Holds (content chunks) := ⟨chunks, rfl, rfl⟩
    have hzero : (start chunks).offset = 0 := rfl
    exact returns_of_holds hholds (Int.le_refl 0) (by omega)

/-- A file of 2^31 bytes that comes one byte at a time. -/
def hugeFile : List Chunk := List.replicate 2147483648 ⟨['a'], List.cons_ne_nil _ _, by decide⟩

theorem content_replicate (n : ℕ) (c : Chunk) : (content (List.replicate n c)).length = n * c.bytes.length := by
  induction n with
  | zero => exact (Nat.zero_mul _).symm
  | succ n ih =>
    have hcons : content (List.replicate (n + 1) c) = c.bytes ++ content (List.replicate n c) := rfl
    rw [hcons, List.length_append, ih, Nat.succ_mul, Nat.add_comm]

/-- The offset behind its one line is no `int`. -/
theorem hugeFile_offset_wrong : ¬Returns (start hugeFile) (withOffsets 0 (rawLines (content hugeFile))) := by
  intro h
  have hlt := length_lt_of_returns h
  rw [hugeFile, content_replicate, List.length_singleton] at hlt
  omega

end OpenHT.Htl.LineReader
