import ShapeSdl.Proofs.FieldNames
import ShapeSdl.Text.Split

/-!
# Documents that can be read back

Names are words of letters, digits and underscores. As long as all names of a document are such
words, the document is found again in its text, so that different documents have different texts.

* `Text.isName` : whether a text is a name;
* `Text.grid`, `Text.ungrid` : the words of the lines of a text, and the text of such words;
* `TypeExpr.decode` : the type of a text, read from its end, where the marks and brackets stand that
  tell what follows (`TypeExpr.decode_text`);
* `Declaration.grid`, `Document.grid` : the words of the lines of a block and of a document;
* `Document.decode` : the document of a text, read line by line from the end. The lines of a block
  are kept until its heading tells what they are (`Document.decode_text`);
* `Graph.enumValues`, `Context.WellNamed`, `Options.WellNamed` : what goes into a run of the compiler
  under names;
* `compileBatch_legible` : the document that comes out is found again in its text.
-/

namespace ShapeSdl

/-! ## Names, words and lines -/

namespace Text

def isNameChar (c : Char) : Bool := c.isAlphanum || c == '_'

/-- A name: a word of letters, digits and underscores that does not begin with a digit. -/
def isName (s : String) : Bool :=
  match s.toList with
  | [] => false
  | first :: rest => isNameChar first && !first.isDigit && rest.all isNameChar

/-- A text without a space or an end of line. -/
def IsWord (s : String) : Prop := ' ' ∉ s.toList ∧ '\n' ∉ s.toList

def IsLine (words : List String) : Prop := words ≠ [] ∧ ∀ word ∈ words, IsWord word

/-- The words of the lines of a text. -/
def grid (s : String) : List (List String) := (split '\n' s).map (split ' ')

/-- The text with these words on its lines. -/
def ungrid (lines : List (List String)) : String :=
  "\n".intercalate (lines.map " ".intercalate)

variable {s : String} {c sep : Char}

theorem isName_iff : isName s = true ↔
    ∃ first rest, s.toList = first :: rest ∧ isNameChar first = true ∧ first.isDigit = false ∧
      ∀ c ∈ rest, isNameChar c = true := by
  unfold isName
  cases s.toList with
  | nil => simp
  | cons first rest => simp [and_assoc]

theorem isNameChar_of_isName (h : isName s = true) (hc : c ∈ s.toList) : isNameChar c = true := by
  obtain ⟨first, rest, hs, hfirst, -, hrest⟩ := isName_iff.1 h
  rw [hs] at hc
  rcases List.mem_cons.1 hc with rfl | hc
  · exact hfirst
  · exact hrest c hc

theorem ne_empty_of_isName (h : isName s = true) : s ≠ "" := by
  rintro rfl
  exact absurd h (by decide)

theorem notMem_of_isName (h : isName s = true) (hc : isNameChar c = false) : c ∉ s.toList := by
  intro hmem
  exact Bool.false_ne_true (hc.symm.trans (isNameChar_of_isName h hmem))

theorem isWord_of_isName (h : isName s = true) : IsWord s :=
  ⟨notMem_of_isName h (by decide), notMem_of_isName h (by decide)⟩

theorem notMem_intercalate {pieces : List String} (hsep : c ∉ s.toList)
    (hpieces : ∀ p ∈ pieces, c ∉ p.toList) : c ∉ (s.intercalate pieces).toList := by
  induction pieces with
  | nil => simp
  | cons first rest ih =>
    obtain ⟨hfirst, hrest⟩ := List.forall_mem_cons.1 hpieces
    cases rest with
    | nil => simpa using hfirst
    | cons second rest =>
      have hlast := ih hrest
      rw [String.intercalate_cons_cons]
      simp only [String.toList_append, List.mem_append, not_or]
      exact ⟨⟨hfirst, hsep⟩, hlast⟩

theorem split_intercalate {pieces : List String} (hs : s.toList = [sep]) (hne : pieces ≠ [])
    (hpieces : ∀ p ∈ pieces, sep ∉ p.toList) : split sep (s.intercalate pieces) = pieces := by
  rw [split_eq_iff, String.toList_intercalate, hs]
  exact ⟨hne, hpieces, rfl⟩

theorem grid_ungrid {lines : List (List String)} (hne : lines ≠ [])
    (hlines : ∀ words ∈ lines, IsLine words) : grid (ungrid lines) = lines := by
  have hnewline : ∀ line ∈ lines.map " ".intercalate, '\n' ∉ line.toList := by
    simp only [List.mem_map]
    rintro _ ⟨words, hwords, rfl⟩
    exact notMem_intercalate (by decide) fun word hword => ((hlines words hwords).2 word hword).2
  have hspace : ∀ words ∈ lines, split ' ' (" ".intercalate words) = words := by
    intro words hwords
    obtain ⟨hfirst, hall⟩ := hlines words hwords
    exact split_intercalate (by decide) hfirst fun word hword => (hall word hword).1
  rw [grid, ungrid, split_intercalate (by decide) (by simpa using hne) hnewline, List.map_map]
  exact (List.map_congr_left hspace).trans (List.map_id lines)

theorem ungrid_append {lines lines' : List (List String)} (h : lines ≠ []) (h' : lines' ≠ []) :
    ungrid (lines ++ lines') = ungrid lines ++ "\n" ++ ungrid lines' := by
  rw [ungrid, List.map_append]
  exact String.intercalate_append_of_ne_nil (by simpa using h) (by simpa using h')

end Text

open Text (isName isNameChar IsWord IsLine ungrid)

/-! ## Types -/

namespace TypeExpr

def WellNamed (t : TypeExpr) : Prop := ∃ name, t.innermost = .str name ∧ isName name = true

/-- The type whose text, read backwards, is the beginning of the list. -/
def readBack : List Char → TypeExpr
  | '!' :: before => .required (readBack before)
  | ']' :: before => .list (readBack before)
  | before => .named (.str (String.ofList (before.takeWhile isNameChar).reverse))

def decode (s : String) : TypeExpr := readBack s.toList.reverse

variable {t : TypeExpr}

theorem readBack_of_isNameChar {c : Char} (hc : isNameChar c = true) (before : List Char) :
    readBack (c :: before) =
      .named (.str (String.ofList ((c :: before).takeWhile isNameChar).reverse)) := by
  unfold readBack
  split
  · next e => cases e; exact absurd hc (by decide)
  · next e => cases e; exact absurd hc (by decide)
  · rfl

theorem readBack_name {name : String} (h : isName name = true) {before : List Char}
    (hbefore : ∀ c ∈ before.head?, isNameChar c = false) :
    readBack (name.toList.reverse ++ before) = .named (.str name) := by
  have hall : ∀ c ∈ name.toList.reverse, isNameChar c = true :=
    fun c hc => Text.isNameChar_of_isName h (List.mem_reverse.1 hc)
  have hstop : before.takeWhile isNameChar = [] := by
    cases before with
    | nil => rfl
    | cons c rest => simp [hbefore c rfl]
  have hread : (name.toList.reverse ++ before).takeWhile isNameChar = name.toList.reverse := by
    rw [List.takeWhile_append_of_pos hall, hstop, List.append_nil]
  cases hrev : name.toList.reverse with
  | nil => exact absurd (by simpa using hrev) (Text.ne_empty_of_isName h)
  | cons last rest =>
    rw [hrev] at hall hread
    rw [List.cons_append] at hread ⊢
    rw [readBack_of_isNameChar (hall last List.mem_cons_self), hread, ← hrev, List.reverse_reverse,
      String.ofList_toList]

/-- A text is read back to the type it is the text of, whatever stands before it. -/
theorem readBack_text (h : t.WellNamed) {before : List Char}
    (hbefore : ∀ c ∈ before.head?, isNameChar c = false) :
    readBack (t.text.toList.reverse ++ before) = t := by
  induction t generalizing before with
  | named name =>
    obtain ⟨name, rfl, hname⟩ := h
    exact readBack_name hname hbefore
  | list element ih =>
    have htext : (TypeExpr.list element).text.toList.reverse ++ before =
        ']' :: (element.text.toList.reverse ++ '[' :: before) := by
      simp [text]
    rw [htext, readBack, ih h (by simp; decide)]
  | required inner ih =>
    have htext : (TypeExpr.required inner).text.toList.reverse ++ before =
        '!' :: (inner.text.toList.reverse ++ before) := by
      simp [text]
    rw [htext, readBack, ih h hbefore]

theorem decode_text (h : t.WellNamed) : decode t.text = t := by
  have hnone : ∀ c ∈ ([] : List Char).head?, isNameChar c = false := by simp
  have hread := readBack_text h hnone
  rwa [List.append_nil] at hread

/-- The text of a type has no character but those of its name, brackets and marks. -/
theorem notMem_text (h : t.WellNamed) {c : Char} (hc : isNameChar c = false)
    (hmarks : c ∉ "[]!".toList) : c ∉ t.text.toList := by
  induction t with
  | named name =>
    obtain ⟨name, rfl, hname⟩ := h
    exact Text.notMem_of_isName hname hc
  | list element ih =>
    have helement := ih h
    simp_all [text]
  | required inner ih =>
    have hinner := ih h
    simp_all [text]

theorem isWord_text (h : t.WellNamed) : IsWord t.text :=
  ⟨notMem_text h (by decide) (by decide), notMem_text h (by decide) (by decide)⟩

end TypeExpr

/-! ## Declarations -/

namespace Declaration

def WellNamed : Declaration → Prop
  | type name fields =>
    isName name = true ∧ ∀ field ∈ fields, isName field.1 = true ∧ field.2.WellNamed
  | enumeration name values => isName name = true ∧ ∀ value ∈ values, isName value = true
  | union name members => isName name = true ∧ ∀ member ∈ members, isName member = true

def fieldWords (field : String × TypeExpr) : List String := [field.1 ++ ":", field.2.text]

/-- The words after the equals sign of a union. -/
def memberWords (members : List String) : List String :=
  if members = [] then [""] else members.intersperse "|"

/-- The words of the lines of a block. An indent is two empty words. -/
def blockGrid (keyword name : String) (entries : List (List String)) : List (List String) :=
  [keyword, name, "\x7b"] :: ((entries.map fun entry => "" :: "" :: entry) ++ [["\x7d"]])

def grid : Declaration → List (List String)
  | type name fields => blockGrid "type" name (fields.map fieldWords)
  | enumeration name values => blockGrid "enum" name (values.map fun value => [value])
  | union name members => [["union", name, "="] ++ memberWords members]

theorem grid_ne_nil (d : Declaration) : d.grid ≠ [] := by
  cases d <;> simp [grid, blockGrid]

theorem intercalate_indent {entry : List String} (h : entry ≠ []) :
    " ".intercalate ("" :: "" :: entry) = "  " ++ " ".intercalate entry := by
  rw [String.intercalate_cons_cons, String.intercalate_cons_of_ne_nil h, String.empty_append,
    ← String.append_assoc]
  rfl

theorem ungrid_blockGrid (keyword name : String) {entries : List (List String)}
    (h : ∀ entry ∈ entries, entry ≠ []) : ungrid (blockGrid keyword name entries) =
      block (keyword ++ " " ++ name) (entries.map " ".intercalate) := by
  have hrest : ungrid ((entries.map fun entry => "" :: "" :: entry) ++ [["\x7d"]]) =
      String.join ((entries.map " ".intercalate).map fun line => "  " ++ line ++ "\n") ++
        "\x7d" := by
    induction entries with
    | nil => simp [ungrid]
    | cons entry rest ih =>
      obtain ⟨hentry, hrest⟩ := List.forall_mem_cons.1 h
      rw [List.map_cons, List.cons_append, ← List.singleton_append,
        Text.ungrid_append (List.cons_ne_nil _ _) (by simp), ih hrest]
      simp [ungrid, intercalate_indent hentry, String.append_assoc]
  rw [blockGrid, ← List.singleton_append,
    Text.ungrid_append (List.cons_ne_nil _ _) (by simp), hrest, block]
  simp [ungrid, String.append_assoc]

theorem memberWords_cons_cons (first second : String) (rest : List String) :
    memberWords (first :: second :: rest) = first :: "|" :: memberWords (second :: rest) := by
  simp [memberWords]

theorem memberWords_ne_nil (members : List String) : memberWords members ≠ [] := by
  cases members with
  | nil => simp [memberWords]
  | cons first rest => cases rest <;> simp [memberWords]

theorem intercalate_memberWords (members : List String) :
    " ".intercalate (memberWords members) = " | ".intercalate members := by
  induction members with
  | nil => rfl
  | cons first rest ih =>
    cases rest with
    | nil => simp [memberWords]
    | cons second rest =>
      rw [memberWords_cons_cons, String.intercalate_cons_cons, String.intercalate_cons_cons,
        String.intercalate_cons_of_ne_nil (memberWords_ne_nil _), ih]
      simp only [String.append_assoc]
      rfl

theorem text_eq (d : Declaration) : d.text = ungrid d.grid := by
  cases d with
  | type name fields =>
    have hfield : " ".intercalate ∘ fieldWords = fieldLine := by
      funext field
      simp [fieldWords, fieldLine, String.append_assoc]
    have hne : ∀ entry ∈ fields.map fieldWords, entry ≠ [] :=
      List.forall_mem_map.2 fun _ _ => List.cons_ne_nil _ _
    rw [text, grid, ungrid_blockGrid _ _ hne, List.map_map, hfield]
    rfl
  | enumeration name values =>
    have hvalue : (" ".intercalate ∘ fun value => [value]) = id :=
      funext fun value => String.intercalate_singleton
    rw [text, grid, ungrid_blockGrid _ _ (by simp), List.map_map, hvalue, List.map_id]
    rfl
  | union name members =>
    rw [text, grid, ungrid, List.map_singleton, String.intercalate_singleton,
      String.intercalate_append_of_ne_nil (by simp) (memberWords_ne_nil _), intercalate_memberWords]
    simp [String.append_assoc]

theorem isLine_memberWords {members : List String} (h : ∀ member ∈ members, IsWord member) :
    IsLine (memberWords members) := by
  refine ⟨memberWords_ne_nil members, ?_⟩
  induction members with
  | nil => simp [memberWords, IsWord]
  | cons first rest ih =>
    obtain ⟨hfirst, hrest⟩ := List.forall_mem_cons.1 h
    cases rest with
    | nil => simpa [memberWords] using hfirst
    | cons second rest =>
      have hbar : IsWord "|" := ⟨by decide, by decide⟩
      rw [memberWords_cons_cons]
      exact List.forall_mem_cons.2 ⟨hfirst, List.forall_mem_cons.2 ⟨hbar, ih hrest⟩⟩

theorem isLine_of_mem_blockGrid {keyword name : String} {entries : List (List String)}
    (hkeyword : IsWord keyword) (hname : IsWord name) (h : ∀ entry ∈ entries, IsLine entry) :
    ∀ words ∈ blockGrid keyword name entries, IsLine words := by
  have hempty : IsWord "" := ⟨by decide, by decide⟩
  have hopen : IsWord "\x7b" := ⟨by decide, by decide⟩
  have hclose : IsWord "\x7d" := ⟨by decide, by decide⟩
  intro words hwords
  simp only [blockGrid, List.mem_cons, List.mem_append, List.mem_map, List.not_mem_nil,
    or_false] at hwords
  rcases hwords with rfl | ⟨entry, hentry, rfl⟩ | rfl
  · simp [IsLine, hkeyword, hname, hopen]
  · simpa [IsLine, hempty] using (h entry hentry).2
  · simp [IsLine, hclose]

/-- The words of a declaration are words, as long as its names are names. -/
theorem WellNamed.isLine {d : Declaration} (h : d.WellNamed) : ∀ words ∈ d.grid, IsLine words := by
  cases d with
  | type name fields =>
    refine isLine_of_mem_blockGrid ⟨by decide, by decide⟩ (Text.isWord_of_isName h.1) ?_
    simp only [List.mem_map]
    rintro _ ⟨field, hfield, rfl⟩
    obtain ⟨hname, htype⟩ := h.2 field hfield
    have hcolon : IsWord (field.1 ++ ":") := by
      simpa [IsWord] using Text.isWord_of_isName hname
    simp [IsLine, fieldWords, hcolon, TypeExpr.isWord_text htype]
  | enumeration name values =>
    refine isLine_of_mem_blockGrid ⟨by decide, by decide⟩ (Text.isWord_of_isName h.1) ?_
    simp only [List.mem_map]
    rintro _ ⟨value, hvalue, rfl⟩
    simp [IsLine, Text.isWord_of_isName (h.2 value hvalue)]
  | union name members =>
    obtain ⟨-, hwords⟩ := isLine_memberWords fun m hm => Text.isWord_of_isName (h.2 m hm)
    have hunion : IsWord "union" := ⟨by decide, by decide⟩
    have heq : IsWord "=" := ⟨by decide, by decide⟩
    simpa [grid, IsLine, hunion, heq, Text.isWord_of_isName h.1] using hwords

end Declaration

/-! ## Documents -/

namespace Document

/-- The words of the lines of a document, with an empty line between two blocks. -/
def grid (d : Document) : List (List String) := [[""]].intercalate (d.map Declaration.grid)

/-- What has been read of a document from its end: declarations, and entries whose heading has not
been read. -/
structure Unread where
  entries : List (List String)
  document : Document

def readField : List String → String × TypeExpr
  | [field, type] => (String.ofList field.toList.dropLast, TypeExpr.decode type)
  | _ => ("", .named .null)

/-- Reads the line before those that have been read. -/
def readLine (words : List String) (read : Unread) : Unread :=
  match words with
  | "" :: "" :: entry => { read with entries := entry :: read.entries }
  | "type" :: name :: _ => ⟨[], .type name (read.entries.map readField) :: read.document⟩
  | "enum" :: name :: _ => ⟨[], .enumeration name (read.entries.map (·.headD "")) :: read.document⟩
  | "union" :: name :: _ :: members =>
    ⟨[], .union name (members.filter isName) :: read.document⟩
  | _ => { read with entries := [] }

/-- The document of a text. -/
def decode (s : String) : Document := ((Text.grid s).foldr readLine ⟨[], []⟩).document

variable {d : Declaration} {document : Document}

theorem foldr_readLine_blockGrid (keyword name : String) (entries : List (List String))
    (read : Unread) : (Declaration.blockGrid keyword name entries).foldr readLine read =
      readLine [keyword, name, "\x7b"] ⟨entries, read.document⟩ := by
  have hentries : (entries.map fun entry => "" :: "" :: entry).foldr readLine ⟨[], read.document⟩ =
      ⟨entries, read.document⟩ := by
    induction entries with
    | nil => rfl
    | cons entry rest ih => rw [List.map_cons, List.foldr_cons, ih]; rfl
  rw [Declaration.blockGrid, List.foldr_cons, List.foldr_append]
  exact congrArg _ hentries

theorem filter_memberWords {members : List String} (h : ∀ member ∈ members, isName member = true) :
    (Declaration.memberWords members).filter isName = members := by
  induction members with
  | nil => rfl
  | cons first rest ih =>
    obtain ⟨hfirst, hrest⟩ := List.forall_mem_cons.1 h
    cases rest with
    | nil => simp [Declaration.memberWords, hfirst]
    | cons second rest =>
      have hbar : isName "|" = false := by decide
      rw [Declaration.memberWords_cons_cons, List.filter_cons_of_pos hfirst,
        List.filter_cons_of_neg (by simp [hbar]), ih hrest]

/-- A block is read to the declaration it was written for. -/
theorem foldr_readLine_grid (h : d.WellNamed) (read : Unread) :
    d.grid.foldr readLine read = ⟨[], d :: read.document⟩ := by
  cases d with
  | type name fields =>
    have hfields : fields.map (readField ∘ Declaration.fieldWords) = fields := by
      refine (List.map_congr_left fun field hfield => ?_).trans (List.map_id fields)
      simp [readField, Declaration.fieldWords, TypeExpr.decode_text (h.2 field hfield).2]
    rw [Declaration.grid, foldr_readLine_blockGrid]
    simp [readLine, hfields]
  | enumeration name values =>
    rw [Declaration.grid, foldr_readLine_blockGrid]
    simp [readLine, Function.comp_def]
  | union name members =>
    simp [Declaration.grid, readLine, filter_memberWords h.2]

theorem grid_cons_cons (d second : Declaration) (rest : Document) :
    grid (d :: second :: rest) = d.grid ++ [""] :: grid (second :: rest) := by
  simp [grid]

theorem foldr_readLine (h : ∀ d ∈ document, d.WellNamed) (hne : document ≠ []) :
    (grid document).foldr readLine ⟨[], []⟩ = ⟨[], document⟩ := by
  induction document with
  | nil => exact absurd rfl hne
  | cons d rest ih =>
    obtain ⟨hd, hrest⟩ := List.forall_mem_cons.1 h
    cases rest with
    | nil => simp [grid, foldr_readLine_grid hd]
    | cons second rest =>
      have hempty : readLine [""] ⟨[], second :: rest⟩ = ⟨[], second :: rest⟩ := rfl
      rw [grid_cons_cons, List.foldr_append, List.foldr_cons, ih hrest (List.cons_ne_nil _ _), hempty,
        foldr_readLine_grid hd]

theorem grid_ne_nil (h : document ≠ []) : grid document ≠ [] := by
  cases document with
  | nil => exact absurd rfl h
  | cons d rest => cases rest <;> simp [grid, Declaration.grid_ne_nil]

theorem text_eq (h : document ≠ []) : document.text = ungrid (grid document) := by
  induction document with
  | nil => exact absurd rfl h
  | cons d rest ih =>
    cases rest with
    | nil => simp [text, grid, Declaration.text_eq]
    | cons second rest =>
      have hrest := ih (List.cons_ne_nil _ _)
      have hempty : ungrid ([""] :: grid (second :: rest)) =
          "\n" ++ ungrid (grid (second :: rest)) := by
        rw [← List.singleton_append,
          Text.ungrid_append (List.cons_ne_nil _ _) (grid_ne_nil (List.cons_ne_nil _ _))]
        simp [ungrid]
      have htext : text (d :: second :: rest) = d.text ++ ("\n" ++ "\n") ++ text (second :: rest) :=
        String.intercalate_cons_cons
      rw [grid_cons_cons, Text.ungrid_append d.grid_ne_nil (List.cons_ne_nil _ _), hempty, ← hrest,
        htext, d.text_eq]
      simp only [String.append_assoc]

theorem isLine_of_mem_grid (h : ∀ d ∈ document, d.WellNamed) :
    ∀ words ∈ grid document, IsLine words := by
  induction document with
  | nil => simp [grid]
  | cons d rest ih =>
    obtain ⟨hd, hrest⟩ := List.forall_mem_cons.1 h
    cases rest with
    | nil => simpa [grid] using hd.isLine
    | cons second rest =>
      have hempty : IsLine [""] := by simp [IsLine, IsWord]
      rw [grid_cons_cons]
      exact List.forall_mem_append.2 ⟨hd.isLine, List.forall_mem_cons.2 ⟨hempty, ih hrest⟩⟩

/-- A document whose names are names is found again in its text. -/
theorem decode_text (h : ∀ d ∈ document, d.WellNamed) : decode document.text = document := by
  by_cases hne : document = []
  · subst hne
    decide
  · rw [decode, text_eq hne, Text.grid_ungrid (grid_ne_nil hne) (isLine_of_mem_grid h),
      foldr_readLine h hne]

end Document

/-! ## Runs of the compiler -/

/-- The values of an enum. Other nodes have none. -/
def Graph.enumValues (g : Graph) (r : Ref) : List Json :=
  match g.shape? r with
  | some (.enumeration values) => values
  | _ => []

/-- What goes into a document under names: the names of the batch and those that nodes have, the
fields of the objects of the batch, the values of its enums as they are written, and the names of the
scalar table that nodes without a name call for. -/
structure Context.WellNamed (cx : Context) (batch : Batch) : Prop where
  entries : ∀ name ∈ batch.keys, isName name = true
  registered : ∀ r name, cx.registry.get? r = some name → isName name = true
  fields : ∀ r ∈ batch.values, ∀ field ∈ (cx.graph.fields r).keys, isName field = true
  values : ∀ r ∈ batch.values, ∀ v ∈ cx.graph.enumValues r, isName (cx.enumValue v) = true
  scalars : ∀ r key name, cx.graph.scalarKey? r = some key → cx.options.scalarName key = .ok name →
    ∃ s, name = .str s ∧ isName s = true

variable {cx : Context} {batch : Batch}

theorem Context.WellNamed.names (h : cx.WellNamed batch) {r : Ref} {name : Json}
    (hn : cx.Names r name) : ∃ s, name = .str s ∧ isName s = true := by
  cases hn with
  | registered registered => exact ⟨_, rfl, h.registered _ _ registered⟩
  | scalar _ keyed written => exact h.scalars _ _ _ keyed written

/-- Out of names come declarations whose names are names. -/
theorem Context.WellNamed.declared (h : cx.WellNamed batch) {entry : String × Ref}
    (hentry : entry ∈ batch.toList) {d : Declaration} (hd : cx.Declared entry d) : d.WellNamed := by
  have hname : isName entry.1 = true := h.entries _ (List.mem_map_of_mem hentry)
  have hmem : entry.2 ∈ batch.values := List.mem_map_of_mem hentry
  cases hd with
  | @type name r fields typed node types =>
    refine ⟨hname, fun s hs => ?_⟩
    obtain ⟨field, hfield, heq, htype⟩ := exists_mem_left types hs
    obtain ⟨e, -, hnames⟩ := htype.endsAt
    refine ⟨?_, h.names hnames⟩
    rw [heq]
    refine h.fields r hmem _ ?_
    rw [Graph.fields, node]
    exact List.mem_map_of_mem hfield
  | @enumeration name r values node =>
    have hvalues := h.values r hmem
    rw [Graph.enumValues, node] at hvalues
    exact ⟨hname, List.forall_mem_map.2 hvalues⟩
  | union node named =>
    refine ⟨hname, fun member hmember => ?_⟩
    obtain ⟨variant, -, hregistered, -⟩ := exists_mem_left named hmember
    exact h.registered _ _ hregistered

/-- What a run of the compiler is given is called by names. -/
def Options.WellNamed (o : Options) (g : Graph) (batch : Batch) : Prop :=
  ∀ registry, o.batchRegistry batch = .ok registry → Context.WellNamed ⟨g, registry, o⟩ batch

theorem Options.WellNamed.document {g : Graph} {o : Options} {batch : Batch} {document : Document}
    {w w' : Walk} (hn : o.WellNamed g batch) (h : compileBatch g o batch w = .ok document w') :
    ∀ d ∈ document, d.WellNamed := by
  obtain ⟨registry, hreg, -, hdeclared, -⟩ := compileBatch_sound h
  intro d hd
  obtain ⟨entry, hentry, hd⟩ := exists_mem_left hdeclared hd
  exact (hn registry hreg).declared hentry hd

/-- As long as all names are words of letters, digits and underscores, the document that a run
returns is found again in its text. Two runs with the same text have therefore returned the same
declarations in the same order, under the same names. -/
theorem compileBatch_legible {g g' : Graph} {o o' : Options} {batch batch' : Batch}
    {document document' : Document} {w w₁ w' w₁' : Walk} (hn : o.WellNamed g batch)
    (h : compileBatch g o batch w = .ok document w₁) (hn' : o'.WellNamed g' batch')
    (h' : compileBatch g' o' batch' w' = .ok document' w₁') :
    Document.decode document.text = document ∧
      (document.text = document'.text → document = document' ∧ batch.keys = batch'.keys) := by
  have hread := Document.decode_text (hn.document h)
  refine ⟨hread, fun htext => ?_⟩
  have hsame : document = document' := by
    rw [← hread, htext, Document.decode_text (hn'.document h')]
  refine ⟨hsame, ?_⟩
  obtain ⟨_, -, -, hdeclared, -⟩ := compileBatch_sound h
  obtain ⟨_, -, -, hdeclared', -⟩ := compileBatch_sound h'
  rw [Entries.keys, Entries.keys, ← Context.map_name_of_declared hdeclared,
    ← Context.map_name_of_declared hdeclared', hsame]

/-- Without options only the names of the batch, its fields and its values can be other than names. -/
theorem Options.wellNamed_default {g : Graph} {batch : Batch}
    (hentries : ∀ name ∈ batch.keys, isName name = true)
    (hfields : ∀ r ∈ batch.values, ∀ field ∈ (g.fields r).keys, isName field = true)
    (hvalues : ∀ r ∈ batch.values, ∀ v ∈ g.enumValues r, isName (Text.upper v.plain) = true) :
    Options.WellNamed {} g batch := by
  rintro registry ⟨⟩
  refine ⟨hentries, fun r name hname => ?_, hfields, hvalues, fun r key name _ hname => ?_⟩
  · exact hentries name (List.mem_map_of_mem (Entries.mem_toList_iff.2 (Batch.get?_of_registry hname)))
  · have hbuiltin : ∀ name ∈ builtinNames, isName name = true := by decide
    obtain ⟨builtin, hmem, hkey⟩ := Options.scalarName_default key
    cases hkey.symm.trans hname
    exact ⟨builtin, rfl, hbuiltin builtin hmem⟩

/-- Books and maps on a shelf. -/
def shelfGraph : Graph := ⟨#[
  ⟨"", [], .object (.ofList [("title", some 1), ("tags", some 2), ("genre", some 3),
    ("beside", some 4)])⟩,
  ⟨"", [], .string⟩, ⟨"", [], .array 5⟩, ⟨"", [], .enumeration [.str "novel", .str "poem"]⟩,
  ⟨"", [], .optional 6⟩, ⟨"", [], .nullable 1⟩, ⟨"", [], .union [some 0, some 7]⟩,
  ⟨"", [], .object ∅⟩]⟩

def shelfBatch : Batch :=
  .ofList [("Book", some 0), ("Genre", some 3), ("Item", some 6), ("Map", some 7)]

/-- The same shelf with its nodes in another order. -/
def shelfGraph' : Graph := ⟨#[
  ⟨"", [], .object ∅⟩, ⟨"", [], .union [some 7, some 0]⟩, ⟨"", [], .nullable 6⟩,
  ⟨"", [], .optional 1⟩, ⟨"", [], .enumeration [.str "NOVEL", .str "POEM"]⟩, ⟨"", [], .array 2⟩,
  ⟨"", [], .string⟩,
  ⟨"", [], .object (.ofList [("title", some 6), ("tags", some 5), ("genre", some 4),
    ("beside", some 3)])⟩]⟩

def shelfBatch' : Batch :=
  .ofList [("Book", some 7), ("Genre", some 4), ("Item", some 1), ("Map", some 0)]

def shelfText : String :=
  "type Book \x7b\n  title: String!\n  tags: [String]!\n  genre: Genre!\n  beside: Item\n\x7d\n\n" ++
  "enum Genre \x7b\n  NOVEL\n  POEM\n\x7d\n\nunion Item = Book | Map\n\ntype Map \x7b\n\x7d"

theorem compileBatch_legible_shelf : ∃ document document' w w',
    compileBatch shelfGraph {} shelfBatch {} = .ok document w ∧
    compileBatch shelfGraph' {} shelfBatch' {} = .ok document' w' ∧
    document.text = shelfText ∧ Document.decode shelfText = document ∧ document = document' := by
  obtain ⟨document, w, h, ht⟩ := Reading.exists_ok (x := compileBatch shelfGraph {} shelfBatch {})
    (p := fun document _ => decide (document.text = shelfText)) (by decide +kernel)
  obtain ⟨document', w', h', ht'⟩ := Reading.exists_ok (x := compileBatch shelfGraph' {} shelfBatch' {})
    (p := fun document _ => decide (document.text = shelfText)) (by decide +kernel)
  have htext : document.text = shelfText := of_decide_eq_true ht
  have hn : Options.WellNamed {} shelfGraph shelfBatch :=
    Options.wellNamed_default (by decide) (by decide +kernel) (by decide +kernel)
  have hn' : Options.WellNamed {} shelfGraph' shelfBatch' :=
    Options.wellNamed_default (by decide) (by decide +kernel) (by decide +kernel)
  obtain ⟨hread, hsame⟩ := compileBatch_legible hn h hn' h'
  exact ⟨document, document', w, w', h, h', htext, htext ▸ hread,
    (hsame (htext.trans (of_decide_eq_true ht').symm)).1⟩

end ShapeSdl
