import Mathlib
import TensorCompiler.Compile
import TensorCompiler.Template.Parse
import TensorCompiler.Proofs.Outcome
/-!
# Templates as text

A template is written down with its requests between delimiters `%%`. Here it is shown that the
templates of all kernels are well-formed texts: parsing gives them back, and injection does not
tell the two apart. For the same reason, what is written out contains no delimiter.

* `IsPlain`: a text without delimiters that no neighbour can complete to one.
* `Template.parse_source`: parsing what is written down for a template joins adjacent texts.
* `Injector.inject_joined`: joining adjacent texts changes nothing for an injection.
* `CLike.wellFormed_pointwiseTemplate`, `CLike.wellFormed_movementTemplate` and their like for the
  other dialects: the templates of the kernels are well-formed.
-/

namespace TensorCompiler

/-! ## Texts without delimiters -/

/-- Every percent sign stands in front of a blank. -/
def isPlain : List Char → Bool
  | [] => true
  | c :: rest => (c != '%' || rest.head? == some ' ') && isPlain rest

/-- A text without delimiters, also if other such texts come before and behind it. -/
def IsPlain (text : String) : Prop := isPlain text.toList = true

theorem isPlain_append {xs : List Char} (ys : List Char) (h : isPlain xs = true) :
    isPlain (xs ++ ys) = isPlain ys := by
  induction xs with
  | nil => rfl
  | cons c rest ih =>
    simp only [isPlain, Bool.and_eq_true, Bool.or_eq_true, bne_iff_ne, beq_iff_eq] at h
    rw [List.cons_append, isPlain, ih h.2]
    rcases h.1 with hc | hblank
    · simp [hc]
    · cases rest <;> simp_all

theorem IsPlain.append {x y : String} (hx : IsPlain x) (hy : IsPlain y) : IsPlain (x ++ y) := by
  unfold IsPlain
  rwa [String.toList_append, isPlain_append _ hx]

theorem IsPlain.literal {cs : List Char} (h : isPlain cs = true) : IsPlain (String.ofList cs) := by
  rwa [IsPlain, String.toList_ofList]

/-- A text with something inserted. -/
theorem IsPlain.insert {x y z : String} (hx : IsPlain x) (hy : IsPlain y) (hz : IsPlain z) :
    IsPlain (x ++ y ++ z) := .append (.append hx hy) hz

/-- A text without percent signs. -/
theorem isPlain_of_not_mem {xs : List Char} (h : '%' ∉ xs) : isPlain xs = true := by
  induction xs with
  | nil => rfl
  | cons c rest ih =>
    have hc : c ≠ '%' := fun e => h (e ▸ List.mem_cons_self ..)
    simp [isPlain, hc, ih fun hmem => h (List.mem_cons_of_mem _ hmem)]

theorem not_infix_of_isPlain {xs : List Char} (h : isPlain xs = true) : ¬['%', '%'] <:+: xs := by
  induction xs with
  | nil => simp
  | cons c rest ih =>
    simp only [isPlain, Bool.and_eq_true, Bool.or_eq_true, bne_iff_ne, beq_iff_eq] at h
    rw [List.infix_cons_iff]
    rintro (⟨tail, ht⟩ | hi)
    · obtain ⟨rfl, rfl⟩ := List.cons.inj ht
      simp at h
    · exact ih h.2 hi

theorem isPlain_toString (n : Nat) : IsPlain (toString n) := by
  rw [Nat.toString_eq_ofList_toDigits]
  exact .literal (isPlain_of_not_mem fun h =>
    absurd (Nat.isDigit_of_mem_toDigits (by decide) (by decide) h) (by decide))

/-! ## Writing templates down -/

/-- What stands between the delimiters of a request. -/
def Request.body : Request → List Char
  | loadBuffer name => "LOAD_BUFFER".toList ++ '(' :: (name.toList ++ [')'])
  | uniform type name =>
    "UNIFORM".toList ++ '(' :: (type.toList ++ ',' :: ' ' :: name.toList ++ [')'])
  | funcName => "FUNC_NAME".toList

theorem Request.body_loadBuffer (name : String) :
    (loadBuffer name).body = "LOAD_BUFFER".toList ++ '(' :: (name.toList ++ [')']) := rfl

theorem Request.body_uniform (type name : String) : (uniform type name).body =
    "UNIFORM".toList ++ '(' :: (type.toList ++ ',' :: ' ' :: name.toList ++ [')']) := rfl

theorem Request.body_funcName : funcName.body = "FUNC_NAME".toList := rfl

/-- Types and names that a request can be written with. -/
def Request.WellFormed : Request → Prop
  | loadBuffer name => isName name.toList = true
  | uniform type name => isName type.toList = true ∧ isName name.toList = true
  | funcName => True

def Segment.WellFormed : Segment → Prop
  | .text x => IsPlain x
  | .request r => r.WellFormed

namespace Template

def WellFormed (t : Template) : Prop := ∀ segment ∈ t.segments, segment.WellFormed

/-- The characters that segments are written down with. -/
def write : List Segment → List Char
  | [] => []
  | .text x :: rest => x.toList ++ write rest
  | .request r :: rest => '%' :: '%' :: (r.body ++ '%' :: '%' :: write rest)

/-- The text of a template. -/
def source (t : Template) : String := String.ofList (write t.segments)

/-- Joins adjacent texts, behind a text that comes before. -/
def join : List Char → List Segment → List Segment
  | before, [] => outer before
  | before, .text x :: rest => join (before ++ x.toList) rest
  | before, .request r :: rest => outer before ++ .request r :: join [] rest

/-- The template with adjacent texts joined. -/
def joined (t : Template) : Template := ⟨join [] t.segments⟩

end Template

/-! ## Parsing -/

theorem Text.dropWhile_of_head {cs : List Char} (h : ∀ c ∈ cs.head?, isBlank c = false) :
    cs.dropWhile isBlank = cs := by
  cases cs with
  | nil => rfl
  | cons c cs => exact List.dropWhile_cons_of_neg (by simp [h c rfl])

theorem Text.trim_eq {cs : List Char} (hfirst : ∀ c ∈ cs.head?, isBlank c = false)
    (hlast : ∀ c ∈ cs.getLast?, isBlank c = false) : trim cs = cs := by
  unfold trim
  rw [dropWhile_of_head hfirst, dropWhile_of_head (by rwa [List.head?_reverse]),
    List.reverse_reverse]

theorem Text.cut?_append {c : Char} {xs : List Char} (h : c ∉ xs) (ys : List Char) :
    cut? c (xs ++ c :: ys) = some (xs, ys) := by
  induction xs with
  | nil => simp [cut?]
  | cons x xs ih =>
    have hx : x ≠ c := fun e => h (e ▸ List.mem_cons_self ..)
    simp [cut?, hx, ih fun hmem => h (List.mem_cons_of_mem _ hmem)]

theorem Text.dropLast?_append (c : Char) (xs : List Char) : dropLast? c (xs ++ [c]) = some xs := by
  simp [dropLast?]

section

variable {word : List Char}

theorem mem_isName (h : isName word = true) {c : Char} (hc : c ∈ word) :
    c.isAlphanum = true ∨ c = '_' := by
  simp only [isName, Bool.and_eq_true, List.all_eq_true, Bool.or_eq_true, beq_iff_eq] at h
  exact h.2 c hc

theorem not_blank_of_isName (h : isName word = true) {c : Char} (hc : c ∈ word) :
    Text.isBlank c = false := by
  rcases mem_isName h hc with hc | rfl
  · simp only [Char.isAlphanum, Char.isAlpha, Char.isUpper, Char.isLower, Char.isDigit,
      Bool.or_eq_true, Bool.and_eq_true, decide_eq_true_eq, ge_iff_le, UInt32.le_iff_toNat_le] at hc
    simp only [Text.isBlank, Text.blankRanges, List.any_cons, List.any_nil, Bool.or_false,
      Bool.or_eq_false_iff, decide_eq_false_iff_not]
    simp at hc
    omega
  · decide

theorem not_mem_of_isName (h : isName word = true) {c : Char} (hc : c.isAlphanum = false)
    (hne : c ≠ '_') : c ∉ word := by
  intro hmem
  rcases mem_isName h hmem with h | h
  · rw [hc] at h
    cases h
  · exact hne h

theorem trim_isName (h : isName word = true) : Text.trim word = word :=
  Text.trim_eq (fun _ hc => not_blank_of_isName h (List.mem_of_mem_head? hc))
    fun _ hc => not_blank_of_isName h (List.mem_of_mem_getLast? hc)

end

theorem isName_keywords : isName "FUNC_NAME".toList = true ∧ isName "LOAD_BUFFER".toList = true ∧
    isName "UNIFORM".toList = true := by
  simp [isName]

section

variable {head arguments : List Char}

theorem trim_call (h : isName head = true) :
    Text.trim (head ++ '(' :: (arguments ++ [')'])) = head ++ '(' :: (arguments ++ [')']) := by
  have hne : head ≠ [] := by
    rintro rfl
    cases h
  refine Text.trim_eq (fun c hc => ?_) (fun c hc => ?_)
  · rw [List.head?_append_of_ne_nil _ hne] at hc
    exact not_blank_of_isName h (List.mem_of_mem_head? hc)
  · rw [List.getLast?_append_cons, ← List.cons_append, List.getLast?_concat] at hc
    obtain rfl := Option.some.inj hc
    decide

theorem cut?_call (h : isName head = true) :
    Text.cut? '(' (head ++ '(' :: (arguments ++ [')'])) = some (head, arguments ++ [')']) :=
  Text.cut?_append (not_mem_of_isName h (by decide) (by decide)) _

/-- A request with arguments is not the name of the kernel. -/
theorem call_ne :
    head ++ '(' :: (arguments ++ [')']) ≠ "FUNC_NAME".toList := by
  intro e
  refine not_mem_of_isName isName_keywords.1 (c := '(') (by decide) (by decide) (e ▸ ?_)
  simp

end

/-- What stands between delimiters is read back as the request. -/
theorem Request.parse?_body {r : Request} (h : r.WellFormed) : Request.parse? r.body = some r := by
  obtain ⟨hfunc, hload, huniform⟩ := isName_keywords
  delta parse?
  dsimp only
  cases r with
  | funcName =>
    rw [body_funcName, trim_isName hfunc, if_pos rfl]
    rfl
  | loadBuffer name =>
    have hname : isName name.toList = true := h
    rw [body_loadBuffer, trim_call hload, if_neg call_ne, cut?_call hload]
    simp only [Option.bind_eq_bind, Option.bind_some, Text.dropLast?_append, trim_isName hload,
      if_true, trim_isName hname]
    simp [hname]
  | uniform type name =>
    obtain ⟨htype, hname⟩ : isName type.toList = true ∧ isName name.toList = true := h
    have hne : ¬"UNIFORM".toList = "LOAD_BUFFER".toList := by simp
    have hcomma : Text.cut? ',' (type.toList ++ ',' :: ' ' :: name.toList) =
        some (type.toList, ' ' :: name.toList) :=
      Text.cut?_append (not_mem_of_isName htype (by decide) (by decide)) _
    have hblank : Text.trim (' ' :: name.toList) = name.toList := by
      rw [Text.trim, List.dropWhile_cons_of_pos (by decide)]
      exact trim_isName hname
    rw [body_uniform, trim_call huniform, if_neg call_ne, cut?_call huniform]
    simp only [Option.bind_eq_bind, Option.bind_some, Text.dropLast?_append, trim_isName huniform]
    rw [if_neg hne]
    simp only [if_true, hcomma, Option.bind_some, hblank, trim_isName htype]
    simp [htype, hname]

theorem splitDelimiters_cons {c : Char} {rest piece : List Char} {pieces : List (List Char)}
    (h : c ≠ '%' ∨ rest.head? ≠ some '%') (hrest : splitDelimiters rest = piece :: pieces) :
    splitDelimiters (c :: rest) = (c :: piece) :: pieces := by
  rw [splitDelimiters.eq_3, hrest]
  rintro tail rfl rfl
  rcases h with h | h <;> exact h rfl

/-- What stands before and behind a request. -/
def delimiter : List Char := ['%', '%']

section

variable {c : Char} {piece rest text xs : List Char}

theorem not_delimiter_infix_cons : ¬delimiter <:+: c :: rest ↔
    (c ≠ '%' ∨ rest.head? ≠ some '%') ∧ ¬delimiter <:+: rest := by
  have hprefix : delimiter <+: c :: rest ↔ c = '%' ∧ rest.head? = some '%' := by
    cases rest <;> simp [delimiter, eq_comm]
  rw [List.infix_cons_iff, hprefix, not_or, not_and_or]

/-- The first character of a text that is cut does not depend on what follows the delimiter. -/
theorem head?_cut : (piece ++ delimiter ++ rest).head? = (piece ++ ['%']).head? := by
  cases piece <;> rfl

theorem splitDelimiters_last (h : ¬delimiter <:+: text) : splitDelimiters text = [text] := by
  induction text with
  | nil => rfl
  | cons c rest ih =>
    obtain ⟨hc, hrest⟩ := not_delimiter_infix_cons.1 h
    exact splitDelimiters_cons hc (ih hrest)

theorem splitDelimiters_cut (h : ¬delimiter <:+: piece ++ ['%']) :
    splitDelimiters (piece ++ delimiter ++ rest) = piece :: splitDelimiters rest := by
  induction piece with
  | nil => rfl
  | cons c piece ih =>
    obtain ⟨hc, hpiece⟩ := not_delimiter_infix_cons.1 h
    exact splitDelimiters_cons (head?_cut ▸ hc) (ih hpiece)

/-- A plain text in front of a delimiter is a piece of its own. -/
theorem splitDelimiters_append (h : isPlain xs = true) (rest : List Char) :
    splitDelimiters (xs ++ '%' :: '%' :: rest) = xs :: splitDelimiters rest := by
  have hplain : ¬delimiter <:+: xs ++ ['%', ' '] := not_infix_of_isPlain (isPlain_append _ h)
  have hcut : ¬delimiter <:+: xs ++ ['%'] := fun hi => hplain (hi.trans ⟨[], [' '], by simp⟩)
  rw [← splitDelimiters_cut hcut, List.append_assoc]
  rfl

theorem splitDelimiters_plain (h : isPlain xs = true) : splitDelimiters xs = [xs] :=
  splitDelimiters_last (not_infix_of_isPlain h)

end

/-- A request contains no percent sign. -/
theorem Request.isPlain_body {r : Request} (h : r.WellFormed) : isPlain r.body = true := by
  obtain ⟨hfunc, hload, huniform⟩ := isName_keywords
  have absent : ∀ word : List Char, isName word = true → '%' ∉ word := fun _ h =>
    not_mem_of_isName h (by decide) (by decide)
  refine isPlain_of_not_mem ?_
  cases r with
  | funcName => exact absent _ hfunc
  | loadBuffer name =>
    have hname := absent name.toList h
    rw [body_loadBuffer]
    simp [hname]
  | uniform type name =>
    have htype := absent type.toList h.1
    have hname := absent name.toList h.2
    rw [body_uniform]
    simp [htype, hname]

namespace Template

/-- The pieces between the delimiters of segments that are written down, behind a text that comes
before. -/
def pieces : List Char → List Segment → List (List Char)
  | before, [] => [before]
  | before, .text x :: rest => pieces (before ++ x.toList) rest
  | before, .request r :: rest => before :: r.body :: pieces [] rest

variable {before : List Char} {segments : List Segment}

theorem splitDelimiters_write (hbefore : isPlain before = true)
    (h : ∀ segment ∈ segments, segment.WellFormed) :
    splitDelimiters (before ++ write segments) = pieces before segments := by
  induction segments generalizing before with
  | nil =>
    rw [write, List.append_nil]
    exact splitDelimiters_plain hbefore
  | cons segment rest ih =>
    obtain ⟨hsegment, hrest⟩ := List.forall_mem_cons.1 h
    cases segment with
    | text x =>
      rw [write, ← List.append_assoc]
      exact ih ((isPlain_append _ hbefore).trans hsegment) hrest
    | request r =>
      rw [write, splitDelimiters_append hbefore,
        splitDelimiters_append (Request.isPlain_body hsegment), pieces]
      rw [← List.nil_append (write rest), ih rfl hrest]

theorem pieces_length : (pieces before segments).length % 2 = 1 := by
  induction segments generalizing before with
  | nil => rfl
  | cons segment rest ih =>
    cases segment with
    | text x => exact ih
    | request r =>
      have hrest : (pieces [] rest).length % 2 = 1 := ih
      rw [pieces, List.length_cons, List.length_cons]
      omega

theorem ofPieces_pieces (h : ∀ segment ∈ segments, segment.WellFormed) :
    ofPieces (pieces before segments) = .ok (join before segments) := by
  induction segments generalizing before with
  | nil => rfl
  | cons segment rest ih =>
    obtain ⟨hsegment, hrest⟩ := List.forall_mem_cons.1 h
    cases segment with
    | text x => exact ih hrest
    | request r =>
      rw [pieces, ofPieces, Request.parse?_body hsegment]
      simp only [ih hrest]
      rfl

/-- What a template is written down with is parsed as the template. -/
theorem parse_source {t : Template} (h : t.WellFormed) : parse t.source = .ok t.joined := by
  have hpieces : splitDelimiters t.source.toList = pieces [] t.segments := by
    rw [source, String.toList_ofList, ← List.nil_append (write t.segments)]
    exact splitDelimiters_write rfl h
  unfold parse
  simp only [hpieces, pieces_length, ofPieces_pieces h]
  rfl

/-! ## Joining texts -/

theorem requests_outer (rest : List Segment) :
    requests ⟨outer before ++ rest⟩ = requests ⟨rest⟩ := by
  unfold outer
  split <;> rfl

theorem requests_join : requests ⟨join before segments⟩ = requests ⟨segments⟩ := by
  induction segments generalizing before with
  | nil =>
    rw [join, ← List.append_nil (outer before)]
    exact requests_outer []
  | cons segment rest ih =>
    cases segment with
    | text x => exact ih
    | request r =>
      rw [join, requests_outer]
      exact congrArg (r :: ·) ih

theorem requests_joined (t : Template) : t.joined.requests = t.requests := requests_join

end Template

section

variable {α : Type} [ScalarText α]

omit [ScalarText α] in
theorem Injection.emit_emit (s : Injection α) (x y : String) :
    (s.emit x).emit y = s.emit (x ++ y) := by
  simp [emit, String.append_assoc]

theorem foldlM_outer (injector : Injector α) (s : Injection α) (before : List Char) :
    (Template.outer before).foldlM (Injection.step injector) s =
      .ok (s.emit (String.ofList before)) := by
  unfold Template.outer
  split
  · next h =>
    rw [List.isEmpty_iff.1 h]
    simp [Injection.emit, pure, Except.pure]
  · rfl

theorem foldlM_join (injector : Injector α) (s : Injection α) (before : List Char)
    (segments : List Segment) : (Template.join before segments).foldlM (Injection.step injector) s =
      segments.foldlM (Injection.step injector) (s.emit (String.ofList before)) := by
  induction segments generalizing s before with
  | nil => exact foldlM_outer injector s before
  | cons segment rest ih =>
    cases segment with
    | text x =>
      rw [Template.join, ih, String.ofList_append, ← Injection.emit_emit, String.ofList_toList]
      rfl
    | request r =>
      have hempty : ∀ s : Injection α, s.emit (String.ofList []) = s := fun s => by
        simp [Injection.emit]
      rw [Template.join, List.foldlM_append, foldlM_outer]
      show ((s.emit _).step injector (.request r) >>= _) = ((s.emit _).step injector (.request r) >>= _)
      refine congrArg _ (funext fun s' => ?_)
      rw [ih, hempty]

/-- An injection does not tell apart whether adjacent texts are joined. -/
theorem Injector.inject_joined (injector : Injector α) (t : Template) :
    injector.inject t.joined = injector.inject t := by
  have hempty : ({} : Injection α).emit (String.ofList []) = {} := by simp [Injection.emit]
  have hsegments : t.joined.segments.foldlM (Injection.step injector) {} =
      t.segments.foldlM (Injection.step injector) {} := by
    rw [Template.joined, foldlM_join, hempty]
  unfold inject nameFault? Template.names
  rw [Template.requests_joined, hsegments]

end

/-! ## Lines -/

/-- A line that can be written down. -/
def Line.WellFormed (line : Line) : Prop := ∀ segment ∈ line, segment.WellFormed

/-- Lines that can be written down. -/
def Writable (lines : List Line) : Prop := ∀ line ∈ lines, line.WellFormed

section

variable {β : Type} {line line' : Line} {lines lines' : List Line} {text name type : String}

@[simp] theorem writable_nil : Writable [] := fun _ h => by cases h

@[simp] theorem writable_cons : Writable (line :: lines) ↔ line.WellFormed ∧ Writable lines :=
  List.forall_mem_cons

@[simp] theorem writable_append : Writable (lines ++ lines') ↔ Writable lines ∧ Writable lines' :=
  List.forall_mem_append

@[simp] theorem writable_map {xs : List β} {f : β → Line} :
    Writable (xs.map f) ↔ ∀ x ∈ xs, (f x).WellFormed := List.forall_mem_map

@[simp] theorem writable_flatMap {xs : List β} {f : β → List Line} :
    Writable (xs.flatMap f) ↔ ∀ x ∈ xs, Writable (f x) := List.forall_mem_flatMap

@[simp] theorem Line.wellFormed_nil : WellFormed [] := fun _ h => by cases h

@[simp] theorem Line.wellFormed_text :
    WellFormed (.text text :: line) ↔ IsPlain text ∧ line.WellFormed := List.forall_mem_cons

@[simp] theorem Line.wellFormed_loadBuffer : WellFormed (.request (.loadBuffer name) :: line) ↔
    isName name.toList = true ∧ line.WellFormed := List.forall_mem_cons

@[simp] theorem Line.wellFormed_uniform : WellFormed (.request (.uniform type name) :: line) ↔
    (isName type.toList = true ∧ isName name.toList = true) ∧ line.WellFormed :=
  List.forall_mem_cons

@[simp] theorem Line.wellFormed_funcName :
    WellFormed (.request .funcName :: line) ↔ line.WellFormed :=
  ⟨fun h => (List.forall_mem_cons.1 h).2, fun h => List.forall_mem_cons.2 ⟨trivial, h⟩⟩

@[simp] theorem Line.wellFormed_append :
    WellFormed (line ++ line') ↔ line.WellFormed ∧ line'.WellFormed := List.forall_mem_append

theorem Template.wellFormed_ofBlocks {blocks : List (List Line)}
    (h : ∀ block ∈ blocks, Writable block) : (ofBlocks blocks).WellFormed := by
  intro segment hsegment
  obtain ⟨line, hline, hsegment⟩ := List.mem_flatMap.1 hsegment
  obtain ⟨block, hblock, hline⟩ := List.mem_flatten.1 hline
  rcases List.mem_append.1 hsegment with hsegment | hsegment
  · exact h block hblock line hline segment hsegment
  · rw [List.mem_singleton.1 hsegment]
    exact .literal (by decide)

theorem writable_zipIdx {xs : List β} {f : β × Nat → Line}
    (h : ∀ x ∈ xs, ∀ i, (f (x, i)).WellFormed) : Writable (xs.zipIdx.map f) := by
  refine writable_map.2 fun e he => h e.1 ?_ e.2
  have := List.mem_map_of_mem (f := Prod.fst) he
  rwa [List.zipIdx_map_fst] at this

theorem writable_orBlankLine (h : Writable lines) : Writable (orBlankLine lines) := by
  unfold orBlankLine
  split
  · simp
  · exact h

theorem isPlain_intercalate {sep : String} (hsep : IsPlain sep) {xs : List String}
    (h : ∀ x ∈ xs, IsPlain x) : IsPlain (sep.intercalate xs) := by
  unfold IsPlain
  rw [String.toList_intercalate]
  induction xs with
  | nil => rfl
  | cons x xs ih =>
    obtain ⟨hx, hxs⟩ := List.forall_mem_cons.1 h
    cases xs with
    | nil =>
      have hx : isPlain x.toList = true := hx
      simpa using hx
    | cons y ys =>
      rw [List.map_cons, List.map_cons, List.intercalate_cons_cons, List.append_assoc,
        isPlain_append _ hx, isPlain_append _ hsep]
      exact ih hxs

end

/-! ## Names -/

theorem isName_literal {cs : List Char} (h : isName cs = true) :
    isName (String.ofList cs).toList = true := by
  rwa [String.toList_ofList]

theorem isName_inputNames (kind : OpKind) : ∀ x ∈ kind.inputNames, isName x.toList = true := by
  cases kind <;> simp [OpKind.inputNames, isName]

theorem isName_movementNames {α : Type} (op : Operator α) :
    ∀ x ∈ op.movementNames, isName x.toList = true := by
  cases op <;> simp [Operator.movementNames, isName]

theorem isName_append {x y : String} (hx : isName x.toList = true)
    (hy : isName y.toList = true) : isName (x ++ y).toList = true := by
  rw [String.toList_append]
  simp only [isName, Bool.and_eq_true, List.all_append] at hx hy ⊢
  refine ⟨?_, hx.2, hy.2⟩
  cases h : x.toList with
  | nil => simp [h] at hx
  | cons c cs => rfl

theorem isName_strideName {x : String} (hx : isName x.toList = true) :
    isName (strideName x).toList = true := isName_append hx (isName_literal (by decide))

theorem isName_textureName {x : String} (hx : isName x.toList = true) :
    isName (Glsl.textureName x).toList = true := isName_append hx (isName_literal (by decide))

theorem isPlain_isName {x : String} (h : isName x.toList = true) : IsPlain x :=
  isPlain_of_not_mem (not_mem_of_isName h (by decide) (by decide))

theorem isPlain_coordinate (rule : CoordinateRule) {entry : String → String}
    (h : ∀ x, isName x.toList = true → IsPlain (entry x)) : IsPlain (rule.text entry) := by
  have name : ∀ {cs : List Char}, isName cs = true → IsPlain (entry (String.ofList cs)) :=
    fun hcs => h _ (isName_literal hcs)
  cases rule with
  | same => exact .literal (by decide)
  | wrap => exact .append (.literal (by decide)) (name (by decide))
  | range =>
    exact .append (.append (name (by decide)) (.literal (by decide))) (name (by decide))
  | scale =>
    exact .append (.append (.append (.literal (by decide)) (name (by decide))) (.literal (by decide)))
      (name (by decide))

/-! ## The templates of the backends -/

namespace CLike

variable {α : Type} {x : String}

theorem wellFormed_declareTable (h : isName x.toList = true) : (declareTable x).WellFormed := by
  simp only [declareTable, Line.wellFormed_text, Line.wellFormed_loadBuffer, Line.wellFormed_nil,
    and_true]
  exact ⟨.insert (.literal (by decide)) (isPlain_isName h) (.literal (by decide)), h,
    .literal (by decide)⟩

theorem wellFormed_declareInt (h : isName x.toList = true) : (declareInt x).WellFormed := by
  simp only [declareInt, Line.wellFormed_text, Line.wellFormed_loadBuffer, Line.wellFormed_nil,
    and_true]
  exact ⟨.insert (.literal (by decide)) (isPlain_isName h) (.literal (by decide)), h,
    .literal (by decide)⟩

theorem wellFormed_expression (f : Pointwise α) : (expression f).WellFormed := by
  cases f
  all_goals
    simp only [expression, Line.wellFormed_text, Line.wellFormed_loadBuffer, Line.wellFormed_nil,
      and_true]
    and_intros
  all_goals first | exact .literal (by decide) | exact isName_literal (by decide)

theorem wellFormed_pointwiseTemplate (f : Pointwise α) : (pointwiseTemplate f).WellFormed := by
  have hexpression := wellFormed_expression f
  have hnames := isName_inputNames f.kind
  unfold pointwiseTemplate
  generalize f.kind.inputNames = names at hnames ⊢
  have hall : ∀ x ∈ "y" :: names, isName x.toList = true :=
    List.forall_mem_cons.2 ⟨isName_literal (by decide), hnames⟩
  have hdeclare : Writable (names.flatMap fun x =>
      [[.text s!"    const float *{x} = ", .request (.loadBuffer x), .text ";"],
        declareTable (strideName x)]) := by
    refine writable_flatMap.2 fun x hx => ?_
    have hname := hnames x hx
    simp only [writable_cons, writable_nil, Line.wellFormed_text, Line.wellFormed_loadBuffer,
      Line.wellFormed_nil, and_true]
    exact ⟨⟨.insert (.literal (by decide)) (isPlain_isName hname) (.literal (by decide)), hname,
      .literal (by decide)⟩, wellFormed_declareTable (isName_strideName hname)⟩
  have hstart : ∀ indices, IsPlain indices → IsPlain s!"        int {indices};" := fun _ h =>
    .insert (.literal (by decide)) h (.literal (by decide))
  have hindices := hstart (", ".intercalate (("y" :: names).map fun x => s!"{x}_index = 0"))
    (isPlain_intercalate (.literal (by decide)) (List.forall_mem_map.2 fun x hx =>
      .append (isPlain_isName (hall x hx)) (.literal (by decide))))
  have hadvance : Writable (("y" :: names).map fun x =>
      [.text s!"            {x}_index += c * {x}_stride[d];"]) := by
    refine writable_map.2 fun x hx => List.forall_mem_singleton.2 ?_
    have hname := isPlain_isName (hall x hx)
    exact .insert (.insert (.literal (by decide)) hname (.literal (by decide))) hname
      (.literal (by decide))
  have hread : ∀ x ∈ names, ∀ i : Nat, IsPlain s!"        const float v{i} = {x}[{x}_index];" := by
    intro x hx i
    have hname := isPlain_isName (hnames x hx)
    exact .insert (.insert (.insert (.literal (by decide)) (isPlain_toString i)
      (.literal (by decide))) hname (.literal (by decide))) hname (.literal (by decide))
  refine Template.wellFormed_ofBlocks ?_
  simp only [List.forall_mem_cons, List.not_mem_nil, false_imp_iff, implies_true, header,
    writable_cons, writable_nil, Line.wellFormed_text, Line.wellFormed_loadBuffer,
    Line.wellFormed_funcName, Line.wellFormed_append, Line.wellFormed_nil, and_true, true_and]
  and_intros
  all_goals first
    | with_reducible assumption
    | exact writable_zipIdx fun x hx i => List.forall_mem_singleton.2 (hread x hx i)
    | exact .literal (by decide)
    | exact isName_literal (by decide)
    | exact wellFormed_declareTable (isName_literal (by decide))
    | exact wellFormed_declareInt (isName_literal (by decide))

theorem wellFormed_movementTemplate (op : Operator α) : (movementTemplate op).WellFormed := by
  have htables : Writable (orBlankLine (op.movementNames.map declareTable)) :=
    writable_orBlankLine (writable_map.2 fun x hx =>
      wellFormed_declareTable (isName_movementNames op x hx))
  have hcoordinate : IsPlain (op.coordinateRule.text fun name => s!"{name}[d]") :=
    isPlain_coordinate _ fun x hx => .append (isPlain_isName hx) (.literal (by decide))
  have hadvance : ∀ coordinate, IsPlain coordinate →
      IsPlain s!"            x_index += ({coordinate}) * x_stride[d];" := fun _ h =>
    .insert (.literal (by decide)) h (.literal (by decide))
  have hindex := hadvance _ hcoordinate
  refine Template.wellFormed_ofBlocks ?_
  simp only [List.forall_mem_cons, List.not_mem_nil, false_imp_iff, implies_true, header,
    writable_cons, writable_nil, Line.wellFormed_text, Line.wellFormed_loadBuffer,
    Line.wellFormed_funcName, Line.wellFormed_nil, and_true, true_and]
  and_intros
  all_goals first
    | with_reducible assumption
    | exact .literal (by decide)
    | exact isName_literal (by decide)
    | exact wellFormed_declareTable (isName_literal (by decide))
    | exact wellFormed_declareInt (isName_literal (by decide))

end CLike

namespace Wgsl

variable {α : Type} {x : String}

theorem wellFormed_declare (h : isName x.toList = true) : (declare x).WellFormed := by
  simp only [declare, Line.wellFormed_text, Line.wellFormed_loadBuffer, Line.wellFormed_nil,
    and_true]
  exact ⟨.insert (.literal (by decide)) (isPlain_isName h) (.literal (by decide)), h,
    .literal (by decide)⟩

theorem wellFormed_expression (f : Pointwise α) : (expression f).WellFormed := by
  cases f
  all_goals
    simp only [expression, Line.wellFormed_text, Line.wellFormed_loadBuffer, Line.wellFormed_nil,
      and_true]
    and_intros
  all_goals first | exact .literal (by decide) | exact isName_literal (by decide)

theorem wellFormed_pointwiseTemplate (f : Pointwise α) : (pointwiseTemplate f).WellFormed := by
  have hexpression := wellFormed_expression f
  have hnames := isName_inputNames f.kind
  unfold pointwiseTemplate
  generalize f.kind.inputNames = names at hnames ⊢
  have hall : ∀ x ∈ "y" :: names, isName x.toList = true :=
    List.forall_mem_cons.2 ⟨isName_literal (by decide), hnames⟩
  have hdeclare : Writable (("y" :: names).flatMap fun x => [declare x, declare (strideName x)]) := by
    refine writable_flatMap.2 fun x hx => ?_
    simp only [writable_cons, writable_nil, and_true]
    exact ⟨wellFormed_declare (hall x hx), wellFormed_declare (isName_strideName (hall x hx))⟩
  have hstart : Writable (("y" :: names).map fun x => [.text s!"        var {x}_index = 0;"]) :=
    writable_map.2 fun x hx => List.forall_mem_singleton.2
      (.insert (.literal (by decide)) (isPlain_isName (hall x hx)) (.literal (by decide)))
  have hadvance : Writable (("y" :: names).map fun x =>
      [.text s!"            {x}_index += c * meta_buffer[{x}_stride + d];"]) := by
    refine writable_map.2 fun x hx => List.forall_mem_singleton.2 ?_
    have hname := isPlain_isName (hall x hx)
    exact .insert (.insert (.literal (by decide)) hname (.literal (by decide))) hname
      (.literal (by decide))
  have hread : ∀ x ∈ names, ∀ i : Nat,
      IsPlain s!"        let v{i} = data_buffer[{x} + {x}_index];" := by
    intro x hx i
    have hname := isPlain_isName (hnames x hx)
    exact .insert (.insert (.insert (.literal (by decide)) (isPlain_toString i)
      (.literal (by decide))) hname (.literal (by decide))) hname (.literal (by decide))
  refine Template.wellFormed_ofBlocks ?_
  simp only [List.forall_mem_cons, List.not_mem_nil, false_imp_iff, implies_true, header, loop,
    writable_cons, writable_nil, Line.wellFormed_text, Line.wellFormed_loadBuffer,
    Line.wellFormed_funcName, Line.wellFormed_append, Line.wellFormed_nil, and_true, true_and]
  and_intros
  all_goals first
    | with_reducible assumption
    | exact writable_zipIdx fun x hx i => List.forall_mem_singleton.2 (hread x hx i)
    | exact .literal (by decide)
    | exact isName_literal (by decide)
    | exact wellFormed_declare (isName_literal (by decide))

theorem wellFormed_movementTemplate (op : Operator α) : (movementTemplate op).WellFormed := by
  have htables : Writable (orBlankLine (op.movementNames.map declare)) :=
    writable_orBlankLine (writable_map.2 fun x hx => wellFormed_declare (isName_movementNames op x hx))
  have hcoordinate : IsPlain (op.coordinateRule.text fun name => s!"meta_buffer[{name} + d]") :=
    isPlain_coordinate _ fun x hx =>
      .insert (.literal (by decide)) (isPlain_isName hx) (.literal (by decide))
  have hadvance : ∀ coordinate, IsPlain coordinate →
      IsPlain s!"            x_index += ({coordinate}) * meta_buffer[x_stride + d];" := fun _ h =>
    .insert (.literal (by decide)) h (.literal (by decide))
  have hindex := hadvance _ hcoordinate
  refine Template.wellFormed_ofBlocks ?_
  simp only [List.forall_mem_cons, List.not_mem_nil, false_imp_iff, implies_true, header, loop,
    writable_cons, writable_nil, Line.wellFormed_text, Line.wellFormed_loadBuffer,
    Line.wellFormed_funcName, Line.wellFormed_nil, and_true, true_and]
  and_intros
  all_goals first
    | with_reducible assumption
    | exact .literal (by decide)
    | exact isName_literal (by decide)
    | exact wellFormed_declare (isName_literal (by decide))

end Wgsl

namespace Glsl

variable {α : Type} {x : String}

theorem wellFormed_expression (f : Pointwise α) : (expression f).WellFormed := by
  cases f
  all_goals
    simp only [expression, Line.wellFormed_text, Line.wellFormed_loadBuffer, Line.wellFormed_nil,
      and_true]
    and_intros
  all_goals first | exact .literal (by decide) | exact isName_literal (by decide)

theorem wellFormed_axisTable (h : isName x.toList = true) : (axisTable x).WellFormed := by
  simp only [axisTable, Line.wellFormed_uniform, Line.wellFormed_nil, and_true]
  exact ⟨isName_literal (by decide), h⟩

theorem writable_sampled (h : isName x.toList = true) : Writable (sampled x) := by
  simp only [sampled, writable_cons, writable_nil, Line.wellFormed_uniform, Line.wellFormed_nil,
    and_true]
  exact ⟨⟨isName_literal (by decide), h⟩, isName_literal (by decide), isName_textureName h⟩

theorem writable_outputUniforms (h : isName x.toList = true) : Writable (outputUniforms x) := by
  simp only [outputUniforms, writable_cons, writable_nil, Line.wellFormed_uniform,
    Line.wellFormed_nil, and_true]
  exact ⟨⟨isName_literal (by decide), isName_literal (by decide)⟩, wellFormed_axisTable h,
    isName_literal (by decide), isName_literal (by decide)⟩

/-- The lines around the body of the loop over the scalars of a texel. -/
theorem writable_frame : Writable header ∧ Writable fetch ∧ Writable mainBegin ∧ Writable mainEnd ∧
    axisLoop.WellFormed := by
  have hloop : axisLoop.WellFormed := List.forall_mem_singleton.2
    (.insert (.literal (by decide)) (isPlain_toString _) (.literal (by decide)))
  simp only [header, fetch, mainBegin, mainEnd, writable_cons, writable_nil, Line.wellFormed_text,
    Line.wellFormed_loadBuffer, Line.wellFormed_funcName, Line.wellFormed_nil, and_true, true_and]
  and_intros
  all_goals first
    | with_reducible assumption
    | exact .literal (by decide)
    | exact isName_literal (by decide)

theorem wellFormed_pointwiseTemplate (f : Pointwise α) : (pointwiseTemplate f).WellFormed := by
  obtain ⟨hheader, hfetch, hbegin, hend, hloop⟩ := writable_frame
  have hexpression := wellFormed_expression f
  have houtput := writable_outputUniforms (x := "shape") (isName_literal (by decide))
  have hnames := isName_inputNames f.kind
  unfold pointwiseTemplate
  generalize f.kind.inputNames = names at hnames ⊢
  have hsampled : Writable (names.flatMap fun x => sampled x ++ [axisTable (strideName x)]) :=
    writable_flatMap.2 fun x hx => writable_append.2 ⟨writable_sampled (hnames x hx),
      List.forall_mem_singleton.2 (wellFormed_axisTable (isName_strideName (hnames x hx)))⟩
  have hstart : Writable (names.map fun x => [.text s!"        int {x}_index = 0;"]) :=
    writable_map.2 fun x hx => List.forall_mem_singleton.2
      (.insert (.literal (by decide)) (isPlain_isName (hnames x hx)) (.literal (by decide)))
  have hadvance : Writable (names.map fun x =>
      [.text s!"            {x}_index += c * {x}_stride[d];"]) := by
    refine writable_map.2 fun x hx => List.forall_mem_singleton.2 ?_
    have hname := isPlain_isName (hnames x hx)
    exact .insert (.insert (.literal (by decide)) hname (.literal (by decide))) hname
      (.literal (by decide))
  have hread : ∀ x ∈ names, ∀ i : Nat,
      IsPlain s!"        float v{i} = fetch({x}, {x}_texture, {x}_index);" := by
    intro x hx i
    have hname := isPlain_isName (hnames x hx)
    exact .insert (.insert (.insert (.insert (.literal (by decide)) (isPlain_toString i)
      (.literal (by decide))) hname (.literal (by decide))) hname (.literal (by decide))) hname
      (.literal (by decide))
  refine Template.wellFormed_ofBlocks ?_
  simp only [List.forall_mem_cons, List.not_mem_nil, false_imp_iff, implies_true, writable_cons,
    writable_nil, Line.wellFormed_text, Line.wellFormed_append, Line.wellFormed_nil, and_true]
  and_intros
  all_goals first
    | with_reducible assumption
    | exact writable_zipIdx fun x hx i => List.forall_mem_singleton.2 (hread x hx i)
    | exact .literal (by decide)

theorem wellFormed_movementTemplate (op : Operator α) : (movementTemplate op).WellFormed := by
  obtain ⟨hheader, hfetch, hbegin, hend, hloop⟩ := writable_frame
  have houtput := writable_outputUniforms (x := "y_shape") (isName_literal (by decide))
  have hsampled := writable_sampled (x := "x") (isName_literal (by decide))
  have hstride := wellFormed_axisTable (x := "x_stride") (isName_literal (by decide))
  have htables : Writable (op.movementNames.map axisTable) :=
    writable_map.2 fun x hx => wellFormed_axisTable (isName_movementNames op x hx)
  have hcoordinate : IsPlain (op.coordinateRule.text fun name => s!"{name}[d]") :=
    isPlain_coordinate _ fun x hx => .append (isPlain_isName hx) (.literal (by decide))
  have hadvance : ∀ coordinate, IsPlain coordinate →
      IsPlain s!"            x_index += ({coordinate}) * x_stride[d];" := fun _ h =>
    .insert (.literal (by decide)) h (.literal (by decide))
  have hindex := hadvance _ hcoordinate
  refine Template.wellFormed_ofBlocks ?_
  simp only [List.forall_mem_cons, List.not_mem_nil, false_imp_iff, implies_true, writable_cons,
    writable_nil, Line.wellFormed_text, Line.wellFormed_nil, and_true]
  and_intros
  all_goals first
    | with_reducible assumption
    | exact .literal (by decide)

end Glsl

end TensorCompiler
