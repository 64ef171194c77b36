import ElCache.Lib.Search
import ElCache.Types

/-!
# Reading and writing configuration files

`SimpleJson` of `config.cpp` looks a value up by searching for its key and then for what the value
may start with; it does not know where a value ends. The writer puts the members of an object one
below the other. This module has the getters, the layout of the text the writer produces (`block`),
and what each getter finds in such a text: the search for a key passes over every other member
(`seek_block`), so a string, a number, a list and an object are read back as they were written. A
boolean is not: `getBool` takes any `true` that comes later in the text (`getBool_block`).
-/

namespace ElCache.SimpleJson

variable {t w : ByteBuffer} {ws : List ByteBuffer} {c : UInt8}

open Text

/-- A text with its quotes. -/
def quoted (w : ByteBuffer) : ByteBuffer := 34 :: (w ++ [34])

/-! ## The getters -/

/-- The text from the colon behind a key on. -/
def seekValue (json : ByteBuffer) (key : String) : Option ByteBuffer :=
  (seek (quoted (ascii key)) json).bind (seek (ascii ":"))

/-- `SimpleJson::get_string`. -/
def getString (json : ByteBuffer) (key : String) (dflt : ByteBuffer) : ByteBuffer :=
  match (seekValue json key).bind (seek (ascii "\"")) with
  | none => dflt
  | some s =>
    match find (ascii "\"") (s.drop 1) with
    | none => dflt
    | some n => (s.drop 1).take n

/-- The characters `get_int` takes for a number. -/
def isIntChar (c : UInt8) : Bool := isDigit c || c = 45

/-- `SimpleJson::get_int`. -/
def getInt (json : ByteBuffer) (key : String) (dflt : Int) : Except StdException Int :=
  match seekValue json key with
  | none => .ok dflt
  | some s =>
    let run := ((s.drop 1).dropWhile isSpace).takeWhile isIntChar
    if run.isEmpty then .ok dflt else stoll run

/-- The characters `get_double` takes for a number. -/
def isDoubleChar (c : UInt8) : Bool := isDigit c || c = 45 || c = 46

/-- `SimpleJson::get_double`, with the conversion of the standard library. -/
def getDouble {D : Type} (stod : ByteBuffer → Except StdException D) (json : ByteBuffer)
    (key : String) (dflt : D) : Except StdException D :=
  match seekValue json key with
  | none => .ok dflt
  | some s =>
    let run := ((s.drop 1).dropWhile isSpace).takeWhile isDoubleChar
    if run.isEmpty then .ok dflt else stod run

/-- `SimpleJson::get_bool`. -/
def getBool (json : ByteBuffer) (key : String) (dflt : Bool) : Bool :=
  match seekValue json key with
  | none => dflt
  | some s =>
    if (find (ascii "true") s).isSome then true
    else if (find (ascii "false") s).isSome then false
    else dflt

/-- The loop of `get_string_array`. Each round takes two quotes, so the length is enough fuel. -/
def stringLoop : Nat → ByteBuffer → List ByteBuffer
  | 0, _ => []
  | fuel + 1, arr =>
    match seek (ascii "\"") arr with
    | none => []
    | some s =>
      match find (ascii "\"") (s.drop 1) with
      | none => []
      | some n => (s.drop 1).take n :: stringLoop fuel ((s.drop 1).drop (n + 1))

/-- `SimpleJson::get_string_array`. -/
def getStringArray (json : ByteBuffer) (key : String) : List ByteBuffer :=
  match (seek (quoted (ascii key)) json).bind (seek (ascii "[")) with
  | none => []
  | some s =>
    match find (ascii "]") (s.drop 1) with
    | none => []
    | some n => stringLoop n ((s.drop 1).take n)

/-- The loop of `get_object`: the text up to the brace that closes the innermost of `depth` open
ones last. -/
def takeBody : Nat → ByteBuffer → ByteBuffer
  | _, [] => []
  | 0, _ => []
  | depth + 1, c :: rest =>
    c :: takeBody (if c = 123 then depth + 2 else if c = 125 then depth else depth + 1) rest

/-- `SimpleJson::get_object`. -/
def getObject (json : ByteBuffer) (key : String) : ByteBuffer :=
  match (seek (quoted (ascii key)) json).bind (seek (ascii "\x7b")) with
  | none => ascii "\x7b\x7d"
  | some s => s.take 1 ++ takeBody 1 (s.drop 1)

/-! ## Layout -/

/-- A member of an object: a key and the text of its value. -/
def member (indent : Nat) (key : String) (value : ByteBuffer) : ByteBuffer :=
  List.replicate indent 32 ++ (quoted (ascii key) ++ (ascii ": " ++ value))

/-- An object, with a member on each line. -/
def block (indent : Nat) (close : ByteBuffer) (ms : List (String × ByteBuffer)) : ByteBuffer :=
  ascii "\x7b\n" ++ (joined (ascii ",\n") (ms.map fun m => member indent m.1 m.2) ++ close)

/-- What follows a member in its object. -/
def behind (indent : Nat) (close : ByteBuffer) (ms : List (String × ByteBuffer)) : ByteBuffer :=
  (ms.flatMap fun m => ascii ",\n" ++ member indent m.1 m.2) ++ close

/-- The value of a key, and the members behind it. -/
def lookup (key : String) : List (String × ByteBuffer) →
    Option (ByteBuffer × List (String × ByteBuffer))
  | [] => none
  | m :: ms => if m.1 = key then some (m.2, ms) else lookup key ms

/-- What is found is the first member with the key. -/
theorem lookup_eq_some {key : String} {ms l : List (String × ByteBuffer)}
    (h : lookup key ms = some (t, l)) : ∃ l₁, ms = l₁ ++ (key, t) :: l ∧ ∀ m ∈ l₁, m.1 ≠ key := by
  induction ms with
  | nil => cases h
  | cons m ms ih =>
    rw [lookup] at h
    split at h
    · next he =>
      cases he
      cases h
      exact ⟨[], rfl, fun _ hm => absurd hm List.not_mem_nil⟩
    · next hne =>
      obtain ⟨l₁, rfl, hl₁⟩ := ih h
      refine ⟨m :: l₁, rfl, fun x hx => ?_⟩
      rcases List.mem_cons.1 hx with rfl | hx
      · exact hne
      · exact hl₁ x hx

theorem mem_of_lookup {key : String} {ms l : List (String × ByteBuffer)}
    (h : lookup key ms = some (t, l)) : (key, t) ∈ ms := by
  obtain ⟨l₁, rfl, _⟩ := lookup_eq_some h
  exact List.mem_append_right l₁ List.mem_cons_self

/-! ## Names and what surrounds them -/

/-- A character of a key. -/
def isNameChar (c : UInt8) : Bool := 97 ≤ c ∧ c ≤ 122 ∨ c = 95

/-- A key: letters and underscores. -/
def IsName (key : String) : Prop :=
  ascii key ≠ [] ∧
    key.toList.all (fun c => c.toNat < 256 && isNameChar (UInt8.ofNat c.toNat)) = true

instance decidableIsName (key : String) : Decidable (IsName key) :=
  inferInstanceAs (Decidable (_ ∧ _))

theorem IsName.isNameChar_of_mem {key : String} (h : IsName key) (hc : c ∈ ascii key) :
    isNameChar c = true := by
  obtain ⟨d, hd, rfl⟩ := List.mem_map.1 hc
  exact (Bool.and_eq_true_iff.1 (List.all_eq_true.1 h.2 d hd)).2

theorem IsName.notMem {key : String} (h : IsName key) (hc : isNameChar c = false) :
    c ∉ ascii key := by
  intro hmem
  rw [h.isNameChar_of_mem hmem] at hc
  cases hc

theorem IsName.map_ascii {key : String} (h : IsName key) :
    (ascii key).map (fun c => Char.ofNat c.toNat) = key.toList := by
  rw [ascii, List.map_map]
  refine (List.map_congr_left fun c hc => ?_).trans key.toList.map_id
  have hbyte := of_decide_eq_true (Bool.and_eq_true_iff.1 (List.all_eq_true.1 h.2 c hc)).1
  show Char.ofNat (UInt8.ofNat c.toNat).toNat = c
  rw [UInt8.toNat_ofNat', Nat.mod_eq_of_lt hbyte, Char.ofNat_toNat]

/-- Keys are told apart by their bytes. -/
theorem IsName.eq_of_ascii_eq {key name : String} (hkey : IsName key) (hname : IsName name)
    (h : ascii name = ascii key) : name = key := by
  refine String.toList_injective ?_
  rw [← hname.map_ascii, h, hkey.map_ascii]

/-- Texts without quotes are told apart by what is in front of the first quote. -/
theorem eq_of_append_quote {v s : ByteBuffer} (hv : 34 ∉ v) (hw : 34 ∉ w)
    (h : v ++ 34 :: s = w ++ 34 :: t) : v = w := by
  have hcut : ∀ {u : ByteBuffer}, 34 ∉ u → ∀ r, (u ++ 34 :: r).takeWhile (· ≠ 34) = u := by
    intro u hu r
    rw [List.takeWhile_append_of_pos fun c hc => decide_eq_true (ne_of_mem_of_not_mem hc hu)]
    exact List.append_nil u
  rw [← hcut hv s, h, hcut hw t]

theorem notMem_quoted (hw : c ∉ w) (hc : c ≠ 34) : c ∉ quoted w := by
  rw [quoted, List.mem_cons, List.mem_append, List.mem_singleton]
  rintro (h | h | h)
  · exact hc h
  · exact hw h
  · exact hc h

/-- A search for a key passes over another text in quotes, if neither a quote nor a key can start
with what follows. -/
theorem skips_quoted {key : String} (hkey : IsName key) (hw : 34 ∉ w) (hne : w ≠ ascii key)
    (hc : c ≠ 34) (hname : isNameChar c = false) :
    Skips (quoted (ascii key)) (quoted w ++ [c]) := by
  have hk : 34 ∉ ascii key := hkey.notMem (by decide)
  obtain ⟨k, ks, hks⟩ := List.exists_cons_of_ne_nil hkey.1
  have hnil : Skips (quoted (ascii key)) [34, c] := by
    rw [quoted, hks]
    refine skips_cons.2 ⟨⟨fun hpre => ?_, fun hpre => ?_⟩,
      skips_of_notMem (fun hmem => hc (List.mem_singleton.1 hmem).symm) _⟩
    · have := hpre.length_le
      simp only [List.length_cons, List.length_append, List.length_nil] at this
      omega
    · have hck : c = k := (List.cons_prefix_cons.1 (List.cons_prefix_cons.1 hpre).2).1
      rw [hck, hkey.isNameChar_of_mem (hks ▸ List.mem_cons_self)] at hname
      cases hname
  have hsplit : quoted w ++ [c] = 34 :: (w ++ [34, c]) := by simp [quoted]
  rw [hsplit]
  refine skips_cons.2 ⟨⟨fun hpre => ?_, fun hpre => ?_⟩, (skips_of_notMem hw _).append hnil⟩
  · obtain ⟨t, ht⟩ := (List.cons_prefix_cons.1 hpre).2
    rw [List.append_assoc] at ht
    exact hne (eq_of_append_quote hw hk ht.symm)
  · obtain ⟨t, ht⟩ := (List.cons_prefix_cons.1 hpre).2
    rw [List.append_assoc] at ht
    exact hne (eq_of_append_quote hw hk ht)

/-- A search for a key passes over a member with another key, if it passes over the value. -/
theorem skips_member {key name : String} (hkey : IsName key) (hname : IsName name)
    (hne : name ≠ key) {value : ByteBuffer} (hvalue : Skips (quoted (ascii key)) (value ++ [c]))
    (indent : Nat) : Skips (quoted (ascii key)) (member indent name value ++ [c]) := by
  have hindent : Skips (quoted (ascii key)) (List.replicate indent 32) :=
    skips_of_notMem (fun hmem => absurd (List.eq_of_mem_replicate hmem) (by decide)) _
  have hquoted : Skips (quoted (ascii key)) (quoted (ascii name) ++ [58]) :=
    skips_quoted hkey (hname.notMem (by decide)) (mt (hkey.eq_of_ascii_eq hname) hne) (by decide)
      (by decide)
  have hblank : Skips (quoted (ascii key)) [32] := skips_of_notMem (by decide) _
  have h := hindent.append (hquoted.append (hblank.append hvalue))
  have hsplit : member indent name value ++ [c] =
      List.replicate indent 32 ++ ((quoted (ascii name) ++ [58]) ++ ([32] ++ (value ++ [c]))) := by
    rw [member, show ascii ": " = [58, 32] from rfl]
    simp only [List.append_assoc, List.cons_append, List.nil_append]
  rw [hsplit]
  exact h

/-- A search for `key` passes over a value with the comma or the end of the line behind it. -/
def PassesOver (key : String) (value : ByteBuffer) : Prop :=
  ∀ c, c = 44 ∨ c = 10 → Skips (quoted (ascii key)) (value ++ [c])

/-- A search for `key` passes over the values of an object. -/
def Passes (key : String) (ms : List (String × ByteBuffer)) : Prop :=
  ∀ m ∈ ms, IsName m.1 ∧ PassesOver key m.2

/-- In an object with these members, a search for a key passes over all values. -/
def Legible (ms : List (String × ByteBuffer)) : Prop := ∀ m ∈ ms, IsName m.1 ∧ Passes m.1 ms

theorem Legible.isName {key : String} {ms l : List (String × ByteBuffer)} (hms : Legible ms)
    (hlook : lookup key ms = some (t, l)) : IsName key :=
  (hms _ (mem_of_lookup hlook)).1

/-- A search for a key of an object stops at its member. -/
theorem seek_block {key : String} {ms l : List (String × ByteBuffer)} (hms : Legible ms)
    (hlook : lookup key ms = some (t, l)) (indent : Nat) (close : ByteBuffer) :
    seek (quoted (ascii key)) (block indent close ms) =
      some (quoted (ascii key) ++ (ascii ": " ++ (t ++ behind indent close l))) := by
  obtain ⟨hkey, hpass⟩ := hms _ (mem_of_lookup hlook)
  obtain ⟨l₁, rfl, hl₁⟩ := lookup_eq_some hlook
  have hopen : Skips (quoted (ascii key)) (ascii "\x7b\n") := skips_of_notMem (by decide) _
  have hindent : Skips (quoted (ascii key)) (List.replicate indent 32) :=
    skips_of_notMem (fun hmem => absurd (List.eq_of_mem_replicate hmem) (by decide)) _
  have hbefore : Skips (quoted (ascii key))
      ((l₁.map fun m => member indent m.1 m.2).flatMap fun x => x ++ ascii ",\n") := by
    rw [List.flatMap_map]
    refine skips_flatMap fun m hm => ?_
    obtain ⟨hm', hvalue⟩ := hpass m (List.mem_append_left _ hm)
    have hmember := skips_member hkey hm' (hl₁ m hm) (hvalue 44 (.inl rfl)) indent
    have hline : Skips (quoted (ascii key)) [10] := skips_of_notMem (by decide) _
    have h := hmember.append hline
    rw [List.append_assoc] at h
    exact h
  have hsplit : block indent close (l₁ ++ (key, t) :: l) =
      (ascii "\x7b\n" ++
        (((l₁.map fun m => member indent m.1 m.2).flatMap fun x => x ++ ascii ",\n") ++
          List.replicate indent 32)) ++
        (quoted (ascii key) ++ (ascii ": " ++ (t ++ behind indent close l))) := by
    rw [block, List.map_append, List.map_cons, joined_append, member, behind, List.flatMap_map]
    simp only [List.append_assoc, List.flatMap_map]
  rw [hsplit]
  exact seek_of_skips (hopen.append (hbefore.append hindent)) _

/-! ## Values that are passed over -/

section
variable {key : String}

theorem passesOver_of_notMem (ht : 34 ∉ t) : PassesOver key t := by
  intro c hc
  refine skips_of_notMem (fun hmem => ?_) _
  rcases List.mem_append.1 hmem with hmem | hmem
  · exact ht hmem
  · rcases hc with rfl | rfl
    · exact absurd hmem (by decide)
    · exact absurd hmem (by decide)

theorem passesOver_quoted (hkey : IsName key) (hw : 34 ∉ w) (hne : w ≠ ascii key) :
    PassesOver key (quoted w) := by
  rintro c (rfl | rfl)
  · exact skips_quoted hkey hw hne (by decide) (by decide)
  · exact skips_quoted hkey hw hne (by decide) (by decide)

/-- The text of a list of strings. -/
def listText (ws : List ByteBuffer) : ByteBuffer :=
  ascii "[" ++ (joined (ascii ", ") (ws.map quoted) ++ ascii "]")

/-- No string of the list is taken for the key. -/
theorem passesOver_listText (hkey : IsName key) (hws : ∀ w ∈ ws, 34 ∉ w ∧ w ≠ ascii key) :
    PassesOver key (listText ws) := by
  intro c hc
  have hopen : Skips (quoted (ascii key)) (ascii "[") := skips_of_notMem (by decide) _
  have hblank : Skips (quoted (ascii key)) [32] := skips_of_notMem (by decide) _
  have hclose : Skips (quoted (ascii key)) (93 :: [c]) := by
    have hbracket : (34 : UInt8) ∉ [93] := by decide
    exact passesOver_of_notMem hbracket c hc
  have hstrings : ∀ x ∈ ws.map quoted, Skips (quoted (ascii key)) (x ++ [44]) ∧
      Skips (quoted (ascii key)) (x ++ [93]) := by
    intro x hx
    obtain ⟨w, hw, rfl⟩ := List.mem_map.1 hx
    obtain ⟨hquote, hne⟩ := hws w hw
    exact ⟨skips_quoted hkey hquote hne (by decide) (by decide),
      skips_quoted hkey hquote hne (by decide) (by decide)⟩
  have h := hopen.append (skips_joined hstrings hblank hclose)
  rw [listText, List.append_assoc, List.append_assoc]
  exact h

/-- An object is passed over if its members have other keys. -/
theorem passesOver_block (hkey : IsName key) {ms : List (String × ByteBuffer)} (hms : Passes key ms)
    (hne : ∀ m ∈ ms, m.1 ≠ key) {close : ByteBuffer} (hclose : 34 ∉ close)
    (indent : Nat) : PassesOver key (block indent (10 :: close) ms) := by
  intro c hc
  have hopen : Skips (quoted (ascii key)) (ascii "\x7b\n") := skips_of_notMem (by decide) _
  have hline : Skips (quoted (ascii key)) [10] := skips_of_notMem (by decide) _
  have hend : Skips (quoted (ascii key)) (10 :: (close ++ [c])) :=
    hline.append (passesOver_of_notMem hclose c hc)
  have hmembers : ∀ x ∈ ms.map (fun m => member indent m.1 m.2),
      Skips (quoted (ascii key)) (x ++ [44]) ∧ Skips (quoted (ascii key)) (x ++ [10]) := by
    intro x hx
    obtain ⟨m, hm, rfl⟩ := List.mem_map.1 hx
    obtain ⟨hname, hover⟩ := hms m hm
    exact ⟨skips_member hkey hname (hne m hm) (hover 44 (.inl rfl)) indent,
      skips_member hkey hname (hne m hm) (hover 10 (.inr rfl)) indent⟩
  have h := hopen.append (skips_joined hmembers hline hend)
  rw [block, List.append_assoc, List.append_assoc]
  exact h

end

/-! ## What the getters find -/

/-- A member is followed by a comma or by the end of its line. -/
theorem behind_eq_cons (indent : Nat) {close : ByteBuffer} (hclose : close.head? = some 10)
    (l : List (String × ByteBuffer)) :
    ∃ c r, behind indent close l = c :: r ∧ (c = 44 ∨ c = 10) := by
  cases l with
  | nil =>
    obtain ⟨r, hr⟩ := List.head?_eq_some_iff.1 hclose
    exact ⟨10, r, hr, .inr rfl⟩
  | cons m l => exact ⟨44, _, rfl, .inl rfl⟩

section
variable {key : String} {ms l : List (String × ByteBuffer)} {indent : Nat} {close : ByteBuffer}

/-- The text from the colon of a member on. -/
theorem seekValue_block (hms : Legible ms) (hlook : lookup key ms = some (t, l)) :
    seekValue (block indent close ms) key =
      some (ascii ": " ++ (t ++ behind indent close l)) := by
  have hcolon : Skips [58] (quoted (ascii key)) :=
    skips_of_notMem (notMem_quoted ((hms.isName hlook).notMem (by decide)) (by decide)) _
  rw [seekValue, seek_block hms hlook]
  exact seek_of_skips hcolon ([32] ++ (t ++ behind indent close l))

/-- A string is read back. -/
theorem getString_block (hw : 34 ∉ w) (hms : Legible ms)
    (hlook : lookup key ms = some (quoted w, l)) (dflt : ByteBuffer) :
    getString (block indent close ms) key dflt = w := by
  have hquote : seek (ascii "\"") (ascii ": " ++ (quoted w ++ behind indent close l)) =
      some (quoted w ++ behind indent close l) := by
    have hblank : Skips (ascii "\"") (ascii ": ") := by decide
    have h := seek_of_skips hblank (w ++ [34] ++ behind indent close l)
    exact h
  have hdrop : (quoted w ++ behind indent close l).drop 1 = w ++ 34 :: behind indent close l := by
    simp [quoted]
  rw [getString, seekValue_block hms hlook, Option.bind_some, hquote]
  simp only [hdrop, show ascii "\"" = [34] from rfl, find_singleton hw, List.take_left]

/-- The run of characters behind the colon and the blanks of a member ends with the value. -/
theorem run_block {p : UInt8 → Bool} (hcomma : p 44 = false) (hline : p 10 = false)
    (hclose : close.head? = some 10) (ht : ∃ c ∈ t.head?, isSpace c = false) :
    (((ascii ": " ++ (t ++ behind indent close l)).drop 1).dropWhile isSpace).takeWhile p =
      t.takeWhile p := by
  obtain ⟨c, hc, hspace⟩ := ht
  obtain ⟨t, rfl⟩ := List.head?_eq_some_iff.1 hc
  have hdrop : ((ascii ": " ++ (c :: t ++ behind indent close l)).drop 1).dropWhile isSpace =
      c :: t ++ behind indent close l := by
    show (32 :: (c :: (t ++ behind indent close l))).dropWhile isSpace = _
    rw [List.dropWhile_cons_of_pos (by decide),
      List.dropWhile_cons_of_neg (by rw [hspace]; exact Bool.false_ne_true)]
    rfl
  obtain ⟨d, r, hr, hd | hd⟩ := behind_eq_cons indent hclose l
  · rw [hdrop, hr, takeWhile_append_cons (hd ▸ hcomma)]
  · rw [hdrop, hr, takeWhile_append_cons (hd ▸ hline)]

/-- A number is read back. -/
theorem getInt_block {z : Int} (hz : IsInt64 z) (hclose : close.head? = some 10)
    (hms : Legible ms) (hlook : lookup key ms = some (decimalInt z, l)) (dflt : Int) :
    getInt (block indent close ms) key dflt = .ok z := by
  have hchars : ∀ c ∈ decimalInt z, isIntChar c = true := by
    intro c hc
    rcases mem_decimalInt hc with hdigit | rfl
    · rw [isIntChar, hdigit]
      rfl
    · decide
  have hhead : ∃ c ∈ (decimalInt z).head?, isSpace c = false := by
    obtain ⟨c, t, hct⟩ := List.exists_cons_of_ne_nil (decimalInt_ne_nil z)
    refine ⟨c, by rw [hct]; rfl, ?_⟩
    rcases mem_decimalInt (hct ▸ List.mem_cons_self) with hdigit | rfl
    · exact isSpace_of_isDigit hdigit
    · decide
  rw [getInt, seekValue_block hms hlook]
  dsimp only
  rw [run_block (by decide) (by decide) hclose hhead, List.takeWhile_eq_self_iff.2 hchars,
    if_neg (by simpa using decimalInt_ne_nil z)]
  exact stoll_decimalInt hz.1 hz.2

/-- Of a number in floating point, the run of characters it starts with is converted, if there is
one. -/
theorem getDouble_block {D : Type} (stod : ByteBuffer → Except StdException D)
    (ht : ∃ c ∈ t.head?, isSpace c = false) (hclose : close.head? = some 10) (hms : Legible ms)
    (hlook : lookup key ms = some (t, l)) (dflt : D) :
    getDouble stod (block indent close ms) key dflt =
      if (t.takeWhile isDoubleChar).isEmpty then .ok dflt
      else stod (t.takeWhile isDoubleChar) := by
  rw [getDouble, seekValue_block hms hlook]
  dsimp only
  rw [run_block (by decide) (by decide) hclose ht]

/-- The text of a boolean. -/
def boolText (b : Bool) : ByteBuffer := if b then ascii "true" else ascii "false"

/-- A search for `true` finds it in a boolean that is true, and otherwise goes on behind it. -/
theorem isSome_find_true (b : Bool) (rest : ByteBuffer) :
    (find (ascii "true") (ascii ": " ++ (boolText b ++ rest))).isSome =
      (b || (find (ascii "true") rest).isSome) := by
  cases b with
  | true =>
    have hblank : Skips (ascii "true") (ascii ": ") := by decide
    rw [find_append_of_skips hblank, boolText, if_pos rfl, find_append, Bool.true_or]
    rfl
  | false =>
    have hfalse : Skips (ascii "true") (ascii ": " ++ boolText false) := by decide
    rw [← List.append_assoc, find_append_of_skips hfalse, Option.isSome_map, Bool.false_or]

theorem isSome_find_false (rest : ByteBuffer) :
    (find (ascii "false") (ascii ": " ++ (boolText false ++ rest))).isSome = true := by
  have hblank : Skips (ascii "false") (ascii ": ") := by decide
  rw [find_append_of_skips hblank, boolText, if_neg Bool.false_ne_true, find_append]
  rfl

/-- The text behind a member has a `true`. -/
def trueBehind (indent : Nat) (close : ByteBuffer) (ms : List (String × ByteBuffer)) : Bool :=
  (find (ascii "true") (behind indent close ms)).isSome

theorem behind_cons (m : String × ByteBuffer) : behind indent close (m :: l) =
    (ascii ",\n" ++ (List.replicate indent 32 ++ quoted (ascii m.1))) ++
      (ascii ": " ++ (m.2 ++ behind indent close l)) := by
  rw [behind, List.flatMap_cons, member, behind]
  simp only [List.append_assoc]

theorem trueBehind_nil (hclose : Skips (ascii "true") close) :
    trueBehind indent close [] = false := by
  rw [trueBehind, behind, List.flatMap_nil, List.nil_append,
    find_eq_none_of_skips hclose (by decide)]
  rfl

theorem trueBehind_cons_bool {b : Bool}
    (hname : Skips (ascii "true")
      (ascii ",\n" ++ (List.replicate indent 32 ++ quoted (ascii key)))) :
    trueBehind indent close ((key, boolText b) :: l) = (b || trueBehind indent close l) := by
  rw [trueBehind, behind_cons, find_append_of_skips hname, Option.isSome_map, isSome_find_true]
  rfl

theorem trueBehind_cons (ht : 116 ∉ t)
    (hname : Skips (ascii "true")
      (ascii ",\n" ++ (List.replicate indent 32 ++ quoted (ascii key)))) :
    trueBehind indent close ((key, t) :: l) = trueBehind indent close l := by
  have hblank : Skips (ascii "true") (ascii ": ") := by decide
  have htext : Skips (ascii "true") t := skips_of_notMem ht _
  rw [trueBehind, behind_cons, find_append_of_skips hname, find_append_of_skips hblank,
    find_append_of_skips htext, Option.isSome_map, Option.isSome_map, Option.isSome_map]
  rfl

/-- A boolean is read back as true also if the text behind it has a `true`. -/
theorem getBool_block {b : Bool} (hms : Legible ms)
    (hlook : lookup key ms = some (boolText b, l)) (dflt : Bool) :
    getBool (block indent close ms) key dflt = (b || trueBehind indent close l) := by
  rw [getBool, seekValue_block hms hlook]
  dsimp only
  rw [isSome_find_true, ← trueBehind]
  split
  · next h => exact h.symm
  · next h =>
    obtain ⟨rfl, _⟩ := Bool.or_eq_false_iff.1 (Bool.eq_false_iff.2 h)
    rw [isSome_find_false, if_pos rfl]
    exact (Bool.eq_false_iff.2 h).symm

/-- A search for a character passes over a key and its colon. -/
theorem skips_key (hkey : IsName key) (hname : isNameChar c = false) (hc : c ∉ ascii "\": ") :
    Skips [c] (quoted (ascii key) ++ ascii ": ") := by
  obtain ⟨hquote, hblank⟩ := not_or.1 (mt List.mem_cons.2 hc)
  exact (skips_of_notMem (notMem_quoted (hkey.notMem hname) hquote) []).append
    (skips_of_notMem hblank [])

/-- One round of the loop takes the next string. -/
theorem stringLoop_quoted {s : ByteBuffer} (hs : 34 ∉ s) (hw : 34 ∉ w) (fuel : Nat)
    (rest : ByteBuffer) : stringLoop (fuel + 1) (s ++ (quoted w ++ rest)) =
      w :: stringLoop fuel rest := by
  have hseek : seek [34] (s ++ (quoted w ++ rest)) = some (34 :: (w ++ 34 :: rest)) := by
    have h := seek_of_skips (skips_of_notMem hs []) (w ++ 34 :: rest)
    rw [quoted, List.cons_append, List.append_assoc]
    exact h
  have hrest : (w ++ 34 :: rest).drop (w.length + 1) = rest := by
    rw [← List.drop_drop, List.drop_left]
    rfl
  rw [stringLoop, show ascii "\"" = [34] from rfl, hseek]
  simp only [List.drop_one, List.tail_cons, find_singleton hw, List.take_left, hrest]

theorem stringLoop_flatMap (hws : ∀ w ∈ ws, 34 ∉ w) {fuel : Nat} (hfuel : ws.length ≤ fuel) :
    stringLoop fuel (ws.flatMap fun w => ascii ", " ++ quoted w) = ws := by
  induction ws generalizing fuel with
  | nil =>
    cases fuel with
    | zero => rfl
    | succ fuel => rfl
  | cons w ws ih =>
    obtain ⟨fuel, rfl⟩ := Nat.exists_eq_succ_of_ne_zero (Nat.ne_zero_of_lt hfuel)
    obtain ⟨hw, hws⟩ := List.forall_mem_cons.1 hws
    rw [List.flatMap_cons, List.append_assoc, stringLoop_quoted (by decide) hw,
      ih hws (Nat.le_of_succ_le_succ hfuel)]

/-- The strings of a list are found one by one. -/
theorem stringLoop_joined (hws : ∀ w ∈ ws, 34 ∉ w) {fuel : Nat} (hfuel : ws.length ≤ fuel) :
    stringLoop fuel (joined (ascii ", ") (ws.map quoted)) = ws := by
  cases ws with
  | nil =>
    cases fuel with
    | zero => rfl
    | succ fuel => rfl
  | cons w ws =>
    obtain ⟨fuel, rfl⟩ := Nat.exists_eq_succ_of_ne_zero (Nat.ne_zero_of_lt hfuel)
    obtain ⟨hw, hws⟩ := List.forall_mem_cons.1 hws
    have hround := stringLoop_quoted (List.not_mem_nil (a := 34)) hw fuel
      (ws.flatMap fun w => ascii ", " ++ quoted w)
    rw [stringLoop_flatMap hws (Nat.le_of_succ_le_succ hfuel), List.nil_append] at hround
    rw [List.map_cons, joined, List.flatMap_map]
    exact hround

/-- Each string takes two quotes. -/
theorem length_le_length_joined (ws : List ByteBuffer) :
    ws.length ≤ (joined (ascii ", ") (ws.map quoted)).length := by
  have hrest : ∀ vs : List ByteBuffer,
      vs.length ≤ ((vs.map quoted).flatMap fun v => ascii ", " ++ v).length := by
    intro vs
    induction vs with
    | nil => exact Nat.le_refl 0
    | cons v vs ih =>
      rw [List.map_cons, List.flatMap_cons, List.length_append, List.length_append, quoted,
        List.length_cons, List.length_cons]
      omega
  cases ws with
  | nil => exact Nat.le_refl 0
  | cons w ws =>
    have h := hrest ws
    show ws.length + 1 ≤ (quoted w ++ (ws.map quoted).flatMap fun v => ascii ", " ++ v).length
    rw [List.length_append, quoted, List.length_cons]
    omega

/-- A list of strings is read back. -/
theorem getStringArray_block (hws : ∀ w ∈ ws, 34 ∉ w) (hbracket : ∀ w ∈ ws, 93 ∉ w)
    (hms : Legible ms) (hlook : lookup key ms = some (listText ws, l)) :
    getStringArray (block indent close ms) key = ws := by
  have hseek : seek [91] (quoted (ascii key) ++
      (ascii ": " ++ (listText ws ++ behind indent close l))) =
        some (91 :: (joined (ascii ", ") (ws.map quoted) ++ 93 :: behind indent close l)) := by
    have hskips : Skips [91] (quoted (ascii key) ++ ascii ": ") :=
      skips_key (hms.isName hlook) (by decide) (by decide)
    have h := seek_of_skips hskips
      (joined (ascii ", ") (ws.map quoted) ++ 93 :: behind indent close l)
    rw [List.append_assoc] at h
    rw [listText, List.append_assoc, List.append_assoc]
    exact h
  have hclosed : 93 ∉ joined (ascii ", ") (ws.map quoted) := by
    refine notMem_joined (by decide) fun x hx => ?_
    obtain ⟨w, hw, rfl⟩ := List.mem_map.1 hx
    exact notMem_quoted (hbracket w hw) (by decide)
  have hfind := find_singleton hclosed (behind indent close l)
  rw [getStringArray, seek_block hms hlook, Option.bind_some,
    show ascii "[" = [91] from rfl, show ascii "]" = [93] from rfl, hseek]
  simp only [List.drop_one, List.tail_cons, hfind, List.take_left]
  exact stringLoop_joined hws (length_le_length_joined ws)

/-- The loop stops behind the brace that closes the object. -/
theorem takeBody_append {body : ByteBuffer} (hopen : 123 ∉ body) (hclose : 125 ∉ body)
    (rest : ByteBuffer) : takeBody 1 (body ++ 125 :: rest) = body ++ [125] := by
  induction body with
  | nil =>
    rw [List.nil_append, takeBody, if_neg (by decide), if_pos rfl]
    cases rest with
    | nil => rfl
    | cons c rest => rfl
  | cons c body ih =>
    obtain ⟨hc, hopen⟩ := not_or.1 (mt List.mem_cons.2 hopen)
    obtain ⟨hc', hclose⟩ := not_or.1 (mt List.mem_cons.2 hclose)
    rw [List.cons_append, takeBody, if_neg (Ne.symm hc), if_neg (Ne.symm hc'),
      ih hopen hclose]
    rfl

/-- An object is read back. -/
theorem getObject_block {body : ByteBuffer} (hopen : 123 ∉ body)
    (hclose : 125 ∉ body) (hms : Legible ms)
    (hlook : lookup key ms = some (123 :: (body ++ [125]), l)) :
    getObject (block indent close ms) key = 123 :: (body ++ [125]) := by
  have hseek : seek [123] (quoted (ascii key) ++
      (ascii ": " ++ (123 :: (body ++ [125]) ++ behind indent close l))) =
        some (123 :: (body ++ 125 :: behind indent close l)) := by
    have hskips : Skips [123] (quoted (ascii key) ++ ascii ": ") :=
      skips_key (hms.isName hlook) (by decide) (by decide)
    have h := seek_of_skips hskips (body ++ 125 :: behind indent close l)
    rw [List.append_assoc] at h
    rw [List.cons_append, List.append_assoc]
    exact h
  rw [getObject, seek_block hms hlook, Option.bind_some,
    show ascii "\x7b" = [123] from rfl, hseek]
  simp only [List.drop_one, List.tail_cons, takeBody_append hopen hclose]
  rfl

end

end ElCache.SimpleJson
