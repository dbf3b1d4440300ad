import RoughCut.Proofs.SidecarPaths
import RoughCut.Proofs.SpelledPaths
import RoughCut.Proofs.Text.Utf8
import RoughCut.RawPath

/-!
Paths of bytes and the paths of their sidecars. What is found in such a path is found in
the characters that stand for its bytes, and where the bytes encode a text it is found in
the text. A sidecar is named after what can be read of the stem of its transcript. So it
never has the path of the transcript, and two transcripts share it exactly if they lie in
one directory and the same can be read of their stems.
-/

namespace RoughCut

namespace RawPath

open RoughCut.Path (Component IsStem nameStem)
open Text.Utf8 (encode decodeLossy IsText)

variable {p q r name parent stem stem' : RawPath} {s : String}

/-! Bytes for characters. -/

@[simp]
theorem toList_letters (p : RawPath) :
    (letters p).toList = p.map fun b => Char.ofNat b.toNat :=
  String.toList_ofList

/-- Each byte has a character of its own, with the number of the byte. -/
theorem toNat_letter (b : UInt8) : (Char.ofNat b.toNat).toNat = b.toNat := by
  have hValid : b.toNat.isValidChar := Or.inl (Nat.lt_trans b.toNat_lt (by decide))
  rw [Char.ofNat, dif_pos hValid]
  rfl

/-- The bytes of a path can be had back from the characters that stand for them. -/
theorem ofLetters_letters (p : RawPath) : ofLetters (letters p) = p := by
  rw [ofLetters, toList_letters, List.map_map]
  refine List.map_id'' (fun b => ?_) p
  rw [Function.comp_apply, toNat_letter, UInt8.ofNat_toNat]

/-- No two paths have the same characters, so nothing is lost by a look at these. -/
theorem letters_inj : letters p = letters q ↔ p = q :=
  ⟨fun h => by rw [← ofLetters_letters p, h, ofLetters_letters], congrArg letters⟩

/-- Characters that stand for bytes. -/
def AreLetters (s : String) : Prop :=
  ∀ c ∈ s.toList, c.toNat < 256

theorem areLetters_letters (p : RawPath) : AreLetters (letters p) := by
  intro c hMem
  rw [toList_letters] at hMem
  obtain ⟨b, -, rfl⟩ := List.mem_map.mp hMem
  rw [toNat_letter]
  exact b.toNat_lt

/-- Characters that stand for bytes at all are those of their bytes. -/
theorem letters_ofLetters (h : AreLetters s) : letters (ofLetters s) = s := by
  rw [← String.toList_inj, toList_letters, ofLetters, List.map_map]
  refine (List.map_congr_left fun c hMem => ?_).trans (List.map_id s.toList)
  rw [Function.comp_apply, Text.Utf8.toNat_ofNat (h c hMem), Char.ofNat_toNat]
  rfl

/-- What is found in the characters of a path is found in its bytes. -/
theorem map_ofLetters_eq_some_iff {found : Option String} (h : ∀ s, found = some s → AreLetters s) :
    found.map ofLetters = some r ↔ found = some (letters r) := by
  constructor
  · intro hFound
    obtain ⟨s, hSome, rfl⟩ := Option.map_eq_some_iff.mp hFound
    rw [letters_ofLetters (h s hSome), hSome]
  · rintro rfl
    rw [Option.map_some, ofLetters_letters]

/-- The last name of a path of bytes is the one whose characters are the last name of
the characters of the path. -/
theorem name?_eq_some_iff : name? p = some name ↔ Path.name? (letters p) = some (letters name) :=
  map_ofLetters_eq_some_iff fun _ hName _ hMem =>
    areLetters_letters p _ (Path.mem_of_mem_name hName hMem)

/-- The parent of a path of bytes is the one whose characters are the parent of the
characters of the path. -/
theorem parent?_eq_some_iff :
    parent? p = some parent ↔ Path.parent? (letters p) = some (letters parent) := by
  refine map_ofLetters_eq_some_iff fun _ hParent c hMem => ?_
  rcases Path.mem_of_mem_parent hParent hMem with rfl | hMem
  · decide
  · exact areLetters_letters p c hMem

/-- The stem of a path of bytes is the one whose characters are the stem of the
characters of the path. -/
theorem stem?_eq_some_iff : stem? p = some stem ↔ Path.stem? (letters p) = some (letters stem) := by
  refine map_ofLetters_eq_some_iff fun s hStem c hMem => ?_
  obtain ⟨⟨front, piece⟩, hSplit, rfl⟩ := Option.map_eq_some_iff.mp hStem
  rw [String.toList_ofList] at hMem
  obtain ⟨hTrimmed, -⟩ := Path.splitName_eq_some_iff.mp hSplit
  exact areLetters_letters p c
    (Path.mem_of_mem_trimIdle (by simp [hTrimmed]) (Path.mem_of_mem_nameStem hMem))

/-- A name is joined to a directory just as their characters are, for nothing but a
slash comes between them. -/
theorem letters_join (directory name : RawPath) :
    letters (join directory name) = Path.join (letters directory) (letters name) := by
  refine letters_ofLetters fun c hMem => ?_
  have hDirectory := areLetters_letters directory c
  have hName := areLetters_letters name c
  unfold Path.join at hMem
  split_ifs at hMem
  · exact hName hMem
  · rw [String.toList_append, List.mem_append] at hMem
    exact hMem.elim hDirectory hName
  · rw [String.toList_append, String.toList_append, List.mem_append, List.mem_append] at hMem
    rcases hMem with (hMem | hMem) | hMem
    · exact hDirectory hMem
    · rw [List.mem_singleton.mp hMem]
      decide
    · exact hName hMem

/-- The parts of a path in order, with a character for each byte of a name. -/
def components (p : RawPath) : List Component :=
  Path.components (letters p)

/-! Names that are texts. -/

theorem letters_append (p q : RawPath) : letters (p ++ q) = letters p ++ letters q := by
  rw [← String.toList_inj, String.toList_append, toList_letters, toList_letters, toList_letters,
    List.map_append]

/-- The characters for the bytes of one character of a text. -/
def spell (c : Char) : List Char :=
  (String.utf8EncodeChar c).map fun b => Char.ofNat b.toNat

/-- The characters for the bytes of a text spell the text, each character with those for
its own bytes. -/
theorem letters_encode (t : String) : letters (encode t) = Path.spelled spell t := by
  rw [letters, Path.spelled, Text.Utf8.encode_eq, List.map_flatMap]
  rfl

/-- The slash and the dot are characters of one byte, and all such characters spell
themselves. -/
theorem spell_of_lt {c : Char} (hOne : c.toNat < 128) : spell c = [c] := by
  rw [spell, Text.Utf8.utf8EncodeChar_of_lt hOne, List.map_singleton,
    Text.Utf8.toNat_ofNat (by omega), Char.ofNat_toNat]

/-- A character of one byte stands for that byte, and for no byte of another character. -/
theorem mem_spell_iff {c d : Char} (hOne : d.toNat < 128) : d ∈ spell c ↔ c = d := by
  constructor
  · intro hMem
    obtain ⟨b, hByte, rfl⟩ := List.mem_map.mp hMem
    rw [toNat_letter] at hOne
    rw [Text.Utf8.toNat_of_mem_utf8EncodeChar hOne hByte, Char.ofNat_toNat]
  · rintro rfl
    rw [spell_of_lt hOne]
    exact List.mem_singleton_self c

/-- No byte of a longer character is that of a slash or a dot. So a text may be parted
before or after it is encoded. -/
theorem spelling_spell : Path.Spelling spell where
  nonempty c h := by
    have hUnits := Text.Utf8.unitsFrom_utf8EncodeChar c []
    rw [List.map_eq_nil_iff.mp h] at hUnits
    cases hUnits
  slash _ := mem_spell_iff (by decide)
  slash_alone := spell_of_lt (by decide)
  dot _ := mem_spell_iff (by decide)
  dot_alone := spell_of_lt (by decide)

/-- The ending of a sidecar is the same in bytes and in characters. -/
theorem letters_ending : letters (encode ".segments.json") = ".segments.json" := by
  decide +kernel

/-- The name of the sidecar of a transcript with such a stem. -/
theorem letters_sidecar (t : String) :
    letters (encode (t ++ ".segments.json")) = letters (encode t) ++ ".segments.json" := by
  rw [Text.Utf8.encode_append, letters_append, letters_ending]

/-- The name of a sidecar is one, whatever the stem is. -/
theorem isName_letters_sidecar (t : String) :
    FileTree.IsName (letters (encode (t ++ ".segments.json"))) := by
  rw [letters_sidecar]
  exact Storage.isName_sidecar _

/-- What is read of a stem has no slash in it, even where something in the stem is not
text. -/
theorem slash_not_mem_lossy (h : '/' ∉ (letters stem).toList) :
    '/' ∉ (letters (encode (decodeLossy stem ++ ".segments.json"))).toList := by
  rw [letters_encode, Path.spelled, String.toList_ofList, spelling_spell.mem_slash,
    String.toList_append, List.mem_append, not_or]
  refine ⟨fun hMem => h ?_, by decide⟩
  rw [toList_letters]
  exact List.mem_map.mpr ⟨0x2F, Text.Utf8.mem_of_mem_decodeLossy (by decide) (by decide) hMem, rfl⟩

/-- A path that ends in a name has a parent and a stem. -/
theorem exists_parent_stem (h : name? p = some name) :
    ∃ parent stem, parent? p = some parent ∧ stem? p = some stem ∧
      components p = components parent ++ [.name (letters name)] ∧
      (letters stem).toList = nameStem (letters name).toList ∧ '/' ∉ (letters stem).toList := by
  obtain ⟨parent, stem, hParent, hStem, hParts, hChars, hSlash⟩ :=
    Storage.exists_parent_stem (name?_eq_some_iff.mp h)
  have hParent' : parent? p = some (ofLetters parent) := by rw [parent?, hParent, Option.map_some]
  have hStem' : stem? p = some (ofLetters stem) := by rw [stem?, hStem, Option.map_some]
  have hParentLetters := Option.some.inj (hParent.symm.trans (parent?_eq_some_iff.mp hParent'))
  have hStemLetters := Option.some.inj (hStem.symm.trans (stem?_eq_some_iff.mp hStem'))
  refine ⟨_, _, hParent', hStem', ?_, ?_, ?_⟩
  · rw [components, components, ← hParentLetters, hParts]
  · rw [← hStemLetters, hChars]
  · rwa [← hStemLetters]

/-- For a path that ends in a name, a sidecar is joined to the given directory or else
to the parent of the path, in one and the same way. -/
theorem sidecarPath_eq_join (hName : name? p = some name) (hParent : parent? p = some parent)
    (hStem : stem? p = some stem) (directory : Option RawPath) :
    sidecarPath p directory =
      join (directory.getD parent) (encode (decodeLossy stem ++ ".segments.json")) := by
  cases directory with
  | some directory => simp only [sidecarPath, hStem, Option.map_some, Option.getD_some]
  | none =>
      simp only [sidecarPath, hStem, Option.map_some, Option.getD_some, Option.getD_none, withName,
        join, Path.withName, name?_eq_some_iff.mp hName, parent?_eq_some_iff.mp hParent]

/-- The path of a sidecar ends in the name that was made for the sidecar. -/
theorem name?_join_sidecar (directory : RawPath) (h : '/' ∉ (letters stem).toList) :
    name? (join directory (encode (decodeLossy stem ++ ".segments.json"))) =
      some (encode (decodeLossy stem ++ ".segments.json")) := by
  rw [name?_eq_some_iff, letters_join]
  exact Path.name?_join _ (slash_not_mem_lossy h) (isName_letters_sidecar _)

/-- The path of a sidecar has a parent, and this is the directory to which the name was
joined, though it may be written in another way. -/
theorem exists_parent_join_sidecar (directory : RawPath) (h : '/' ∉ (letters stem).toList) :
    ∃ holder, parent? (join directory (encode (decodeLossy stem ++ ".segments.json"))) =
      some holder ∧ components holder = components directory := by
  obtain ⟨holder, hHolder, hParts⟩ :=
    Path.exists_parent_join (letters directory) (slash_not_mem_lossy h) (isName_letters_sidecar _)
  have hParent : parent? (join directory (encode (decodeLossy stem ++ ".segments.json"))) =
      some (ofLetters holder) := by
    rw [parent?, letters_join, hHolder, Option.map_some]
  have hLetters := parent?_eq_some_iff.mp hParent
  rw [letters_join, hHolder, Option.some_inj] at hLetters
  exact ⟨_, hParent, by rw [components, ← hLetters, hParts, components]⟩

/-- The parts of the path of a sidecar are those of its directory with the name of the
sidecar added. -/
theorem components_join_sidecar (directory : RawPath) (h : '/' ∉ (letters stem).toList) :
    components (join directory (encode (decodeLossy stem ++ ".segments.json"))) =
      components directory ++ [.name (letters (encode (decodeLossy stem ++ ".segments.json")))] := by
  rw [components, letters_join,
    Path.components_join _ (slash_not_mem_lossy h) (isName_letters_sidecar _), components]

/-- A sidecar is never called as its transcript: that would have to have the stem of the
sidecar with an ending more in its own, where it stays a text. -/
theorem sidecar_ne_name (hStem : (letters stem).toList = nameStem (letters name).toList) :
    encode (decodeLossy stem ++ ".segments.json") ≠ name := by
  rintro rfl
  have hEnding : (letters stem).toList =
      (letters (encode (decodeLossy stem ++ ".segments"))).toList := by
    have hShort : letters (encode ".segments") = ".segments" := by decide +kernel
    rw [hStem, letters_sidecar, String.toList_append, Path.nameStem_append,
      Text.Utf8.encode_append, letters_append, hShort, String.toList_append]
  have hLonger := congrArg decodeLossy (letters_inj.mp (String.toList_inj.mp hEnding))
  rw [Text.Utf8.decodeLossy_encode] at hLonger
  have hLength := congrArg String.length hLonger
  rw [String.length_append] at hLength
  exact absurd hLength (by simp)

/-- Nothing is lost by reading a stem that is a text. Two such stems that are read alike
are the same. -/
theorem decodeLossy_inj (hp : IsText p) (hq : IsText q) : decodeLossy p = decodeLossy q ↔ p = q := by
  obtain ⟨s, rfl⟩ := hp
  obtain ⟨t, rfl⟩ := hq
  rw [Text.Utf8.decodeLossy_encode, Text.Utf8.decodeLossy_encode, Text.Utf8.encode_inj]

/-- Two sidecars have one path exactly if they lie in one directory and the same was read
of the stems that they are named after. -/
theorem components_join_sidecar_eq_iff {directory other : RawPath}
    (h : '/' ∉ (letters stem).toList) (hOther : '/' ∉ (letters stem').toList) :
    components (join directory (encode (decodeLossy stem ++ ".segments.json"))) =
        components (join other (encode (decodeLossy stem' ++ ".segments.json"))) ↔
      components directory = components other ∧ decodeLossy stem = decodeLossy stem' := by
  rw [components_join_sidecar _ h, components_join_sidecar _ hOther]
  constructor
  · intro hSame
    obtain ⟨hFront, hLast⟩ := List.append_inj' hSame rfl
    simp only [List.cons.injEq, Component.name.injEq, and_true, letters_inj,
      Text.Utf8.encode_inj] at hLast
    have hChars := congrArg String.toList hLast
    rw [String.toList_append, String.toList_append, List.append_cancel_right_eq] at hChars
    exact ⟨hFront, String.toList_inj.mp hChars⟩
  · rintro ⟨hDirectories, hStems⟩
    rw [hDirectories, hStems]

/-- The sidecar of a transcript is named after the text of the stem of its name, lies in
the directory that is given or else in the transcript's own, and is another path than the
transcript. Without a given directory two transcripts share a sidecar exactly where they
have the same parent and the text of their stems is the same. Stems that are texts are
the same where their texts are. -/
theorem sidecarPath_named (h : name? p = some name) :
    ∃ parent stem, parent? p = some parent ∧ stem? p = some stem ∧
      components p = components parent ++ [.name (letters name)] ∧
      IsStem (letters name).toList (letters stem).toList ∧
      (∀ directory,
        name? (sidecarPath p directory) = some (encode (decodeLossy stem ++ ".segments.json")) ∧
        (IsText stem →
          name? (sidecarPath p directory) = some (stem ++ encode ".segments.json")) ∧
        (∃ holder, parent? (sidecarPath p directory) = some holder ∧
          components holder = components (directory.getD parent)) ∧
        components (sidecarPath p directory) ≠ components p) ∧
      ∀ q other, name? q = some other → ∃ stem', stem? q = some stem' ∧
        (components (sidecarPath p none) = components (sidecarPath q none) ↔
          (parent? q).map components = some (components parent) ∧
            decodeLossy stem' = decodeLossy stem) ∧
        (IsText stem → IsText stem' →
          (components (sidecarPath p none) = components (sidecarPath q none) ↔
            (parent? q).map components = some (components parent) ∧ stem' = stem)) := by
  obtain ⟨parent, stem, hParent, hStem, hParts, hChars, hSlash⟩ := exists_parent_stem h
  refine ⟨parent, stem, hParent, hStem, hParts, hChars ▸ Path.isStem_nameStem _,
    fun directory => ?_, fun q other hOther => ?_⟩
  · rw [sidecarPath_eq_join h hParent hStem]
    have hName := name?_join_sidecar (directory.getD parent) hSlash
    refine ⟨hName, ?_, exists_parent_join_sidecar _ hSlash, ?_⟩
    · rintro ⟨text, rfl⟩
      rw [hName, Text.Utf8.decodeLossy_encode, Text.Utf8.encode_append]
    · rw [components_join_sidecar _ hSlash, hParts]
      intro hSame
      have hNames := (List.append_inj' hSame rfl).2
      simp only [List.cons.injEq, Component.name.injEq, and_true] at hNames
      exact sidecar_ne_name hChars (letters_inj.mp hNames)
  · obtain ⟨parent', stem', hParent', hStem', -, -, hSlash'⟩ := exists_parent_stem hOther
    have hShared : components (sidecarPath p none) = components (sidecarPath q none) ↔
        (parent? q).map components = some (components parent) ∧
          decodeLossy stem' = decodeLossy stem := by
      rw [sidecarPath_eq_join h hParent hStem, sidecarPath_eq_join hOther hParent' hStem',
        components_join_sidecar_eq_iff hSlash hSlash', hParent', Option.getD_none, Option.getD_none,
        Option.map_some, Option.some_inj, eq_comm (a := components parent),
        eq_comm (a := decodeLossy stem)]
    refine ⟨stem', hStem', hShared, fun hText hText' => ?_⟩
    rw [hShared, decodeLossy_inj hText' hText]

/-- A byte that is no text goes into the name of a sidecar as U+FFFD, beside a transcript
that is itself named like a sidecar. Another transcript has the same sidecar. -/
theorem sidecarPath_named_twice :
    let p := encode "takes//" ++ 0xFF :: encode ".segments.json"
    let q := encode "takes/./" ++ 0xFE :: encode ".segments.txt"
    name? (sidecarPath p (some (encode "takes/"))) =
        some (encode "\uFFFD.segments.segments.json") ∧
      components (sidecarPath p (some (encode "takes/"))) ≠ components p ∧
      components (sidecarPath p none) = components (sidecarPath q none) := by
  intro p q
  have hEnds : name? p = some (0xFF :: encode ".segments.json") := by decide +kernel
  have hOther : name? q = some (0xFE :: encode ".segments.txt") := by decide +kernel
  obtain ⟨parent, stem, hParent, hStem, -, -, hPlaces, hShared⟩ := sidecarPath_named hEnds
  have hParent' : parent? p = some (encode "takes") := by decide +kernel
  have hStem' : stem? p = some (0xFF :: encode ".segments") := by decide +kernel
  obtain rfl := Option.some.inj (hParent.symm.trans hParent')
  obtain rfl := Option.some.inj (hStem.symm.trans hStem')
  obtain ⟨hName, -, -, hNew⟩ := hPlaces (some (encode "takes/"))
  have hText : decodeLossy (0xFF :: encode ".segments") ++ ".segments.json" =
      "\uFFFD.segments.segments.json" := by
    decide +kernel
  obtain ⟨stem', hStem', hSame, -⟩ := hShared q _ hOther
  have hTwin : stem? q = some (0xFE :: encode ".segments") := by decide +kernel
  obtain rfl := Option.some.inj (hStem'.symm.trans hTwin)
  refine ⟨hText ▸ hName, hNew, hSame.mpr ⟨?_, ?_⟩⟩ <;> decide +kernel

/-- Where a stem is no text, a sidecar is not named after the stem itself, and two
transcripts in one directory share it though their stems differ. -/
theorem sidecarPath_of_no_text :
    let p : RawPath := 0xFF :: encode ".json"
    let q : RawPath := 0xFE :: encode ".json"
    (name? p = some p ∧ stem? p = some [0xFF] ∧ parent? p = some [] ∧
      sidecarPath p none = encode "\uFFFD.segments.json") ∧
      (name? q = some q ∧ stem? q = some [0xFE] ∧ parent? q = some [] ∧
        sidecarPath q none = encode "\uFFFD.segments.json") ∧
      (¬ ∀ p name stem, name? p = some name → stem? p = some stem →
        name? (sidecarPath p none) = some (stem ++ encode ".segments.json")) ∧
      ¬ ∀ p q name other, name? p = some name → name? q = some other →
        (components (sidecarPath p none) = components (sidecarPath q none) ↔
          (parent? p).map components = (parent? q).map components ∧ stem? p = stem? q) := by
  intro p q
  have hp : name? p = some p ∧ stem? p = some [0xFF] ∧ parent? p = some [] ∧
      sidecarPath p none = encode "\uFFFD.segments.json" := by
    decide +kernel
  have hq : name? q = some q ∧ stem? q = some [0xFE] ∧ parent? q = some [] ∧
      sidecarPath q none = encode "\uFFFD.segments.json" := by
    decide +kernel
  refine ⟨hp, hq, fun hNamed => ?_, fun hShared => ?_⟩
  · have hName := hNamed p p [0xFF] hp.1 hp.2.1
    rw [hp.2.2.2] at hName
    exact absurd hName (by decide +kernel)
  · obtain ⟨-, hStems⟩ := (hShared p q p q hp.1 hq.1).mp (by rw [hp.2.2.2, hq.2.2.2])
    rw [hp.2.1, hq.2.1] at hStems
    exact absurd hStems (by decide)

/-! Texts as paths. -/

theorem ofLetters_spelled (t : String) : ofLetters (Path.spelled spell t) = encode t := by
  rw [← letters_encode, ofLetters_letters]

/-- The stem of an encoded path is the encoded stem of the path. -/
theorem stem?_encode (t : String) : stem? (encode t) = (Path.stem? t).map encode := by
  rw [stem?, letters_encode, spelling_spell.stem?_spelled, Option.map_map]
  exact congrArg (Option.map · (Path.stem? t)) (funext ofLetters_spelled)

/-- Encoded paths are joined to the encoding of the joined paths. -/
theorem join_encode (directory name : String) :
    join (encode directory) (encode name) = encode (Path.join directory name) := by
  rw [join, letters_encode, letters_encode, spelling_spell.join_spelled, ofLetters_spelled]

/-- To replace the last name of an encoded path by an encoded name is to encode the path
with its last name replaced. -/
theorem withName_encode (p name : String) :
    withName (encode p) (encode name) = encode (Path.withName p name) := by
  rw [withName, letters_encode, letters_encode, spelling_spell.withName_spelled, ofLetters_spelled]

/-- The sidecar of a path that is a text is a text, which can be made without a look at
the bytes. -/
theorem sidecarPath_encode (transcript : String) (directory : Option String) :
    sidecarPath (encode transcript) (directory.map encode) =
      encode (Storage.sidecarPath transcript directory) := by
  have hStem : (stem? (encode transcript)).map decodeLossy = Path.stem? transcript := by
    rw [stem?_encode, Option.map_map]
    exact (congrArg (Option.map · (Path.stem? transcript))
      (funext Text.Utf8.decodeLossy_encode)).trans Option.map_id'
  unfold sidecarPath Storage.sidecarPath
  rw [hStem]
  cases directory with
  | none => exact withName_encode _ _
  | some directory => exact join_encode _ _

end RawPath

end RoughCut
