import Mathlib.Data.List.AList
import Mathlib.Data.List.Dedup
import ThreadedServer.Trimming

/-!
# Configuration files

The constructor of `Config` reads a file line by line while the stream is good, trims
each line, leaves out the empty ones and the comments, and splits the others at the
first `=`.  An assertion demands that there is one.

What can be written in such a file is defined here by a grammar of its own, which
knows nothing of trimming: pairs with padding, blank lines and comments, with or
without a newline behind the last of them.
-/

namespace ThreadedServer

/-- The characters that are trimmed, `" \t\r\n"`. -/
def whitespace : List Char := [' ', '\t', '\r', '\n']

/-- `trim` of `Config.cc`. -/
def trim (s : List Char) : List Char := Trimming.cut whitespace s

/-- `ifs` is what is left of a stream that is good.  The line ends before the next
newline, which is taken off too; or at the end of the file, and then the stream is good
no longer. -/
def getline (ifs : List Char) : List Char × Option (List Char) :=
  match ifs.dropWhile (· != '\n') with
  | [] => (ifs, none)
  | _ :: rest => (ifs.takeWhile (· != '\n'), some rest)

/-- `Config`, with the entries of `map_`. -/
structure Config where
  map : AList fun _ : List Char => List Char

namespace Config

/-- The body of the loop of the constructor, for the line read; `none` when the
assertion fails. -/
def addLine (c : Config) (line : List Char) : Option Config :=
  let line := trim line
  if 0 < line.length ∧ line.head? ≠ some '#' then
    match line.idxOf? '=' with
    | none => none
    | some pos =>
        let key := trim (line.take pos)
        let value := trim (line.drop (pos + 1))
        some ⟨c.map.insert key value⟩
  else some c

/-- What is left of a stream. -/
def left : Option (List Char) → Nat
  | none => 0
  | some ifs => ifs.length + 1

theorem left_getline (ifs : List Char) : left (getline ifs).2 < left (some ifs) := by
  rw [getline]
  split
  case h_1 => exact Nat.succ_pos _
  case h_2 c rest hdrop =>
    have hle := List.length_dropWhile_le (· != '\n') ifs
    rw [hdrop, List.length_cons] at hle
    exact Nat.succ_lt_succ hle

/-- `while (ifs.good())` -/
def read (c : Config) : Option (List Char) → Option Config
  | none => some c
  | some ifs => (c.addLine (getline ifs).1).bind fun c => c.read (getline ifs).2
  termination_by ifs => left ifs
  decreasing_by exact left_getline ifs

/-- The constructor; a file that cannot be opened leaves the stream not good. -/
def create (file : Option (List Char)) : Option Config := read ⟨∅⟩ file

/-- `map_[key]`, which inserts an empty value where the key is missing. -/
def getString (c : Config) (key : List Char) : List Char × Config :=
  match c.map.lookup key with
  | some value => (value, c)
  | none => ([], ⟨c.map.insert key []⟩)

def size (c : Config) : Nat := c.map.entries.length

/-! ## The grammar -/

/-- Padding: spaces, tabs and carriage returns. -/
abbrev Padding := { s : List Char // ∀ c ∈ s, c ∈ [' ', '\t', '\r'] }

/-- There is no white space at the ends. -/
abbrev Trimmed (s : List Char) : Prop := Trimming.Tight (fun c => c ∈ whitespace) s

abbrev Key := { s : List Char // Trimmed s ∧ '\n' ∉ s ∧ '=' ∉ s ∧ s.head? ≠ some '#' }

abbrev Value := { s : List Char // Trimmed s ∧ '\n' ∉ s }

/-- What can stand on a line. -/
inductive Line
  | pair (before : Padding) (key : Key) (afterKey beforeValue : Padding) (value : Value)
      (after : Padding)
  | blank (padding : Padding)
  | comment (before : Padding) (text : { s : List Char // '\n' ∉ s })

def Line.text : Line → List Char
  | pair before key afterKey beforeValue value after =>
      (before.val ++ (key.val ++ afterKey.val)) ++
        '=' :: (beforeValue.val ++ (value.val ++ after.val))
  | blank padding => padding.val
  | comment before text => before.val ++ '#' :: text.val

def Line.pairs : Line → List (Key × Value)
  | pair _ key _ _ value _ => [(key, value)]
  | blank _ | comment _ _ => []

/-- The text writes the pairs, one on a line. -/
inductive Writes : List (Key × Value) → List Char → Prop
  /-- nothing more, behind the newline of the last line -/
  | done : Writes [] []
  /-- the last line, without a newline -/
  | last (line : Line) : Writes line.pairs line.text
  | line (line : Line) {pairs : List (Key × Value)} {text : List Char}
      (rest : Writes pairs text) : Writes (line.pairs ++ pairs) (line.text ++ '\n' :: text)

/-- What makes the assertion fail: a line that is neither blank nor a comment after
trimming, without `=`. -/
def Bad (line : List Char) : Prop :=
  trim line ≠ [] ∧ (trim line).head? ≠ some '#' ∧ '=' ∉ line

instance (line : List Char) : Decidable (Bad line) :=
  inferInstanceAs (Decidable (_ ∧ _ ∧ _))

/-! ## One line -/

section Line

variable {c : Config} {s u w : List Char}

theorem trim_eq : trim s = Trimming.trim (fun c => c ∈ whitespace) s := Trimming.cut_eq _ _

/-- Padding is white space. -/
theorem Padding.blank (p : Padding) : ∀ c ∈ p.val, decide (c ∈ whitespace) = true := by
  intro c hc
  have hpadding := p.property c hc
  simp only [List.mem_cons, List.not_mem_nil, or_false] at hpadding
  rcases hpadding with rfl | rfl | rfl <;> decide

theorem Padding.newline (p : Padding) : '\n' ∉ p.val :=
  fun h => absurd (p.property _ h) (by decide)

theorem Padding.equals (p : Padding) : '=' ∉ p.val :=
  fun h => absurd (p.property _ h) (by decide)

theorem idxOf?_append_cons (hu : '=' ∉ u) : (u ++ '=' :: w).idxOf? '=' = some u.length := by
  induction u with
  | nil => rfl
  | cons x u ih =>
      have hx : x ≠ '=' := fun h => hu (h ▸ List.mem_cons_self)
      rw [List.cons_append, List.idxOf?_cons, ih fun h => hu (List.mem_cons_of_mem _ h)]
      simp [hx]

/-- A line is split at the first `=`. -/
theorem addLine_split (c : Config) (h : trim s = u ++ '=' :: w) (hu : '=' ∉ u)
    (hcomment : (trim s).head? ≠ some '#') :
    c.addLine s = some ⟨c.map.insert (trim u) (trim w)⟩ := by
  have hpos : 0 < (trim s).length := by
    rw [h, List.length_append, List.length_cons]
    omega
  simp only [addLine, if_pos (And.intro hpos hcomment)]
  rw [h, idxOf?_append_cons hu]
  simp

/-- What a line becomes depends on what `trim` leaves of it. -/
theorem addLine_cases (c : Config) (s : List Char) :
    (trim s = [] ∧ c.addLine s = some c) ∨
    ((trim s).head? = some '#' ∧ c.addLine s = some c) ∨
    (trim s ≠ [] ∧ (trim s).head? ≠ some '#' ∧ '=' ∉ trim s ∧ c.addLine s = none) ∨
    ∃ u w, trim s = u ++ '=' :: w ∧ '=' ∉ u ∧ (trim s).head? ≠ some '#' ∧
      c.addLine s = some ⟨c.map.insert (trim u) (trim w)⟩ := by
  by_cases hnil : trim s = []
  · exact Or.inl ⟨hnil, by simp [addLine, hnil]⟩
  by_cases hcomment : (trim s).head? = some '#'
  · exact Or.inr (Or.inl ⟨hcomment, by simp [addLine, hcomment]⟩)
  by_cases hmem : '=' ∈ trim s
  · obtain ⟨u, w, heq, hu⟩ := List.eq_append_cons_of_mem hmem
    exact Or.inr (Or.inr (Or.inr ⟨u, w, heq, hu, hcomment, addLine_split c heq hu hcomment⟩))
  · refine Or.inr (Or.inr (Or.inl ⟨hnil, hcomment, hmem, ?_⟩))
    simp only [addLine, if_pos (And.intro (List.length_pos_iff.mpr hnil) hcomment)]
    rw [List.idxOf?_eq_none_iff.mpr hmem]

/-- The assertion fails exactly for the bad lines. -/
theorem addLine_eq_none_iff : c.addLine s = none ↔ Bad s := by
  have hmem : '=' ∈ trim s ↔ '=' ∈ s := by
    rw [trim_eq]
    exact Trimming.mem_trim_iff rfl
  rw [Bad, ← hmem]
  rcases addLine_cases c s with ⟨hnil, h⟩ | ⟨hcomment, h⟩ | ⟨hnil, hcomment, heq, h⟩ |
    ⟨u, w, heq, -, hcomment, h⟩
  · simp [h, hnil]
  · simp [h, hcomment]
  · simp [h, hnil, hcomment, heq]
  · simp [h, heq]

/-- An entry of the map is added. -/
def insert (c : Config) (p : Key × Value) : Config := ⟨c.map.insert p.1.val p.2.val⟩

/-- The two sides of the first `=` are trimmed, whatever has been trimmed of the line. -/
theorem addLine_first (c : Config) (hu : '=' ∉ u)
    (hcomment : (u.dropWhile fun c => c ∈ whitespace).head? ≠ some '#') :
    c.addLine (u ++ '=' :: w) = some ⟨c.map.insert (trim u) (trim w)⟩ := by
  have hline : trim (u ++ '=' :: w) = (u.dropWhile fun c => c ∈ whitespace) ++
      '=' :: w.rdropWhile fun c => c ∈ whitespace := by
    rw [trim_eq]
    exact Trimming.trim_append_cons rfl
  have hhead : (trim (u ++ '=' :: w)).head? ≠ some '#' := by
    rw [hline]
    cases hfront : u.dropWhile fun c => c ∈ whitespace with
    | nil => simp
    | cons x u' => simpa [hfront] using hcomment
  have hmem : '=' ∉ u.dropWhile fun c => c ∈ whitespace :=
    fun h => hu ((List.dropWhile_sublist _).subset h)
  rw [addLine_split c hline hmem hhead, trim_eq, trim_eq, Trimming.trim_dropWhile,
    Trimming.trim_rdropWhile, ← trim_eq, ← trim_eq]

theorem addLine_pair (before : Padding) (key : Key) (afterKey beforeValue : Padding)
    (value : Value) (after : Padding) :
    c.addLine (Line.pair before key afterKey beforeValue value after).text =
      some (c.insert (key, value)) := by
  obtain ⟨key, htight, -, heq, hcomment⟩ := key
  have hkey : trim (before.val ++ (key ++ afterKey.val)) = key := by
    rw [trim_eq]
    exact Trimming.trim_padded before.blank htight afterKey.blank
  have hvalue : trim (beforeValue.val ++ (value.val ++ after.val)) = value.val := by
    rw [trim_eq]
    exact Trimming.trim_padded beforeValue.blank value.property.1 after.blank
  have hmem : '=' ∉ before.val ++ (key ++ afterKey.val) := by
    simp [before.equals, heq, afterKey.equals]
  have hhead : ((before.val ++ (key ++ afterKey.val)).dropWhile
      fun c => c ∈ whitespace).head? ≠ some '#' := by
    rw [List.dropWhile_append_of_pos before.blank]
    cases key with
    | nil => simp [List.dropWhile_eq_nil_iff.mpr afterKey.blank]
    | cons x key =>
        rw [List.cons_append, List.dropWhile_cons_of_neg (by simp [htight.1 x rfl])]
        exact hcomment
  show c.addLine ((before.val ++ (key ++ afterKey.val)) ++
    '=' :: (beforeValue.val ++ (value.val ++ after.val))) = _
  rw [addLine_first c hmem hhead, hkey, hvalue]
  rfl

theorem addLine_blank (padding : Padding) : c.addLine (Line.blank padding).text = some c := by
  have hnil : trim (Line.blank padding).text = [] := by
    rw [trim_eq, Trimming.trim_eq_nil_iff]
    exact padding.blank
  simp [addLine, hnil]

theorem addLine_comment (before : Padding) (text : { s : List Char // '\n' ∉ s }) :
    c.addLine (Line.comment before text).text = some c := by
  have hcomment : (trim (Line.comment before text).text).head? = some '#' := by
    rw [trim_eq, Line.text, Trimming.trim_append_left before.blank,
      ← List.nil_append ('#' :: text.val), Trimming.trim_append_cons rfl]
    rfl
  simp [addLine, hcomment]

/-- A line adds the pairs that are written on it. -/
theorem addLine_text (l : Line) : c.addLine l.text = some (l.pairs.foldl insert c) := by
  cases l with
  | pair before key afterKey beforeValue value after => exact addLine_pair ..
  | blank padding => exact addLine_blank padding
  | comment before text => exact addLine_comment before text

theorem Line.newline (l : Line) : '\n' ∉ l.text := by
  cases l with
  | pair before key afterKey beforeValue value after =>
      simp [Line.text, before.newline, key.property.2.1, afterKey.newline, beforeValue.newline,
        value.property.2, after.newline]
  | blank padding => exact padding.newline
  | comment before text => simp [Line.text, before.newline, text.property]

end Line

/-! ## All lines -/

section Read

variable {c : Config} {l rest text : List Char} {pairs : List (Key × Value)}

theorem getline_line (h : '\n' ∉ l) (rest : List Char) :
    getline (l ++ '\n' :: rest) = (l, some rest) := by
  have hne : ∀ x ∈ l, (x != '\n') = true := by
    intro x hx
    exact bne_iff_ne.mpr fun heq => h (heq ▸ hx)
  rw [getline, List.dropWhile_append_of_pos hne, List.takeWhile_append_of_pos hne]
  simp

theorem getline_last (h : '\n' ∉ l) : getline l = (l, none) := by
  have hne : ∀ x ∈ l, (x != '\n') = true := by
    intro x hx
    exact bne_iff_ne.mpr fun heq => h (heq ▸ hx)
  rw [getline, List.dropWhile_eq_nil_iff.mpr hne]

theorem read_line (c : Config) (h : '\n' ∉ l) (rest : List Char) :
    c.read (some (l ++ '\n' :: rest)) = (c.addLine l).bind fun c => c.read (some rest) := by
  rw [read, getline_line h]

theorem read_last (c : Config) (h : '\n' ∉ l) : c.read (some l) = c.addLine l := by
  rw [read, getline_last h]
  simp [read]

/-- The loop goes over the lines of the text. -/
theorem read_eq_foldlM (c : Config) (text : List Char) :
    c.read (some text) = (text.splitOn '\n').foldlM addLine c := by
  induction hlen : text.length using Nat.strong_induction_on generalizing text c with
  | _ n ih =>
      by_cases hmem : '\n' ∈ text
      · obtain ⟨l, rest, rfl, hl⟩ := List.eq_append_cons_of_mem hmem
        have hlt : rest.length < n := by
          rw [List.length_append, List.length_cons] at hlen
          omega
        rw [read_line c hl, List.splitOn_append_cons_self_of_not_mem hl, List.foldlM_cons]
        exact congrArg (c.addLine l).bind (funext fun c => ih rest.length hlt c rest rfl)
      · rw [read_last c hmem, List.splitOn_eq_singleton hmem]
        exact (bind_pure (c.addLine text)).symm

theorem foldlM_eq_none_iff {lines : List (List Char)} :
    lines.foldlM addLine c = none ↔ ∃ line ∈ lines, Bad line := by
  induction lines generalizing c with
  | nil => simp
  | cons line lines ih =>
      have hbad : c.addLine line = none ↔ Bad line := addLine_eq_none_iff
      simp only [List.foldlM_cons, List.mem_cons, exists_eq_or_imp, ← hbad]
      cases hline : c.addLine line with
      | none => simp
      | some c' => simpa using ih

/-- A text that writes pairs is read as these pairs. -/
theorem Writes.read (h : Writes pairs text) (c : Config) :
    c.read (some text) = some (pairs.foldl insert c) := by
  induction h generalizing c with
  | done => exact (read_last c (by simp)).trans rfl
  | last line => rw [read_last c line.newline, addLine_text]
  | line line rest ih =>
      rw [read_line c line.newline, addLine_text, Option.bind_some, ih, List.foldl_append]

end Read

/-! ## The map -/

section Map

variable {c : Config} {pairs : List (Key × Value)}

theorem mem_foldl_insert {key : List Char} :
    key ∈ (pairs.foldl insert c).map ↔ (∃ p ∈ pairs, p.1.val = key) ∨ key ∈ c.map := by
  induction pairs generalizing c with
  | nil => simp
  | cons p pairs ih =>
      simp only [List.foldl_cons, ih, insert, AList.mem_insert, List.mem_cons, exists_eq_or_imp]
      grind

theorem lookup_foldl_insert {key : Key} (h : ∀ p ∈ pairs, p.1 ≠ key) :
    (pairs.foldl insert c).map.lookup key.val = c.map.lookup key.val := by
  induction pairs generalizing c with
  | nil => rfl
  | cons p pairs ih =>
      have hne : key.val ≠ p.1.val := fun heq => h p List.mem_cons_self (Subtype.ext heq.symm)
      rw [List.foldl_cons, ih fun q hq => h q (List.mem_cons_of_mem _ hq), insert,
        AList.lookup_insert_ne hne]

/-- The last pair of a key decides. -/
theorem lookup_last {key : Key} {value : Value} {before after : List (Key × Value)}
    (h : ∀ p ∈ after, p.1 ≠ key) :
    ((before ++ (key, value) :: after).foldl insert c).map.lookup key.val = some value.val := by
  rw [List.foldl_append, List.foldl_cons, lookup_foldl_insert h, insert, AList.lookup_insert]

theorem size_foldl_insert :
    (pairs.foldl insert ⟨∅⟩).size = (pairs.map Prod.fst).dedup.length := by
  have hnodup : ((pairs.map Prod.fst).dedup.map Subtype.val).Nodup :=
    (List.nodup_dedup _).map Subtype.val_injective
  have hperm : (pairs.foldl insert ⟨∅⟩).map.keys.Perm
      ((pairs.map Prod.fst).dedup.map Subtype.val) := by
    rw [List.perm_ext_iff_of_nodup (AList.keys_nodup _) hnodup]
    intro key
    rw [← AList.mem_keys, mem_foldl_insert]
    simp [AList.notMem_empty]
  have hlen := hperm.length_eq
  rw [List.length_map] at hlen
  rw [← hlen, size, AList.keys, List.keys, List.length_map]

end Map

/-- **What a configuration file means.**  A text that writes pairs is accepted; a key has
the value of its last pair, there are no other keys, and the size is the number of
keys.  Of an arbitrary text the assertion fails exactly when a line is bad. -/
theorem create_meaning :
    (∀ pairs text, Writes pairs text →
      ∃ c, create (some text) = some c ∧
        (∀ before key value after, pairs = before ++ (key, value) :: after →
          (∀ p ∈ after, p.1 ≠ key) → c.getString key.val = (value.val, c)) ∧
        (∀ key, key ∈ c.map ↔ ∃ p ∈ pairs, p.1.val = key) ∧
        c.size = (pairs.map Prod.fst).dedup.length) ∧
    ∀ text, create (some text) = none ↔ ∃ line ∈ text.splitOn '\n', Bad line := by
  constructor
  · intro pairs text hwrites
    refine ⟨_, hwrites.read ⟨∅⟩, ?_, ?_, size_foldl_insert⟩
    · intro before key value after heq hlast
      rw [getString, heq, lookup_last hlast]
    · intro key
      rw [mem_foldl_insert]
      simp [AList.notMem_empty]
  · intro text
    rw [create, read_eq_foldlM, foldlM_eq_none_iff]

end Config

end ThreadedServer
