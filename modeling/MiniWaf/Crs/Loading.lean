import MiniWaf.Crs.Tags
import MiniWaf.Theory.References
import MiniWaf.Theory.StableSort

/-! Loading of a CRS directory: the rule files in the order of their names, with the names of
phrase files rooted in the data directory, as one source for the runtime.
-/

set_option autoImplicit false

namespace MiniWaf.Crs

-- Names of phrase files

/-- `Path::join`, and back to text. -/
def joinPath (dir name : Text) : Text :=
  if name.head? = some '/' then name
  else if dir = [] ∨ dir.getLast? = some '/' then dir ++ name
  else dir ++ '/' :: name

/-- The letters of a name in the loader's pattern. -/
def nameChar (c : Char) : Bool :=
  ('A' ≤ c && c ≤ 'Z') || ('a' ≤ c && c ≤ 'z') || ('0' ≤ c && c ≤ '9') || c == '.' || c == '_' || c == '/' || c == '-'

def isDataName (name : Text) : Bool := decide (5 < name.length) && ".data".toList.isSuffixOf name

structure DataFile where
  white : Text
  name : Text
  deriving DecidableEq, Repr

namespace DataFile

def word : Text := "pmFromFile".toList

/-- A match of the loader's pattern at the front: `@pmFromFile`, white space, and a name as long as it can be. -/
def find : Text → Option DataFile
  | '@' :: s =>
    match Text.stripStart word s with
    | none => none
    | some rest =>
      let white := rest.takeWhile Text.isWhitespace
      if white = [] then none
      else
        (longest isDataName ((rest.dropWhile Text.isWhitespace).takeWhile nameChar)).map fun name => ⟨white, name⟩
  | _ => none

def shown (file : DataFile) : Text := '@' :: (word ++ (file.white ++ file.name))

def rooted (dir : Text) (file : DataFile) : DataFile := ⟨[' '], joinPath dir file.name⟩

end DataFile

theorem nameChar_plain {c : Char} (letter : nameChar c = true) : Text.isWhitespace c = false ∧ c ≠ '@' := by
  simp only [nameChar, Bool.or_eq_true, Bool.and_eq_true, decide_eq_true_eq, beq_iff_eq, Char.le_def,
    UInt32.le_iff_toNat_le] at letter
  constructor
  · rw [Bool.eq_false_iff]
    intro white
    simp only [Text.isWhitespace, Bool.or_eq_true, Bool.and_eq_true, decide_eq_true_eq, beq_iff_eq] at white
    rcases letter with (((((range | range) | range) | same) | same) | same) | same
    all_goals first
      | (subst same; revert white; decide)
      | (simp at range; omega)
  · rintro rfl
    revert letter
    decide

structure Found (file : DataFile) (rest : Text) : Prop where
  spaced : file.white ≠ []
  white : ∀ c ∈ file.white, Text.isWhitespace c = true
  letters : ∀ c ∈ file.name, nameChar c = true
  most : longest isDataName (file.name ++ rest.takeWhile nameChar) = some file.name

theorem Found.find {file : DataFile} {rest : Text} (found : Found file rest) :
    DataFile.find (file.shown ++ rest) = some file := by
  obtain ⟨spaced, white, letters, most⟩ := found
  obtain ⟨-, data⟩ := longest_some most
  obtain ⟨c, more, name⟩ : ∃ c more, file.name = c :: more := by
    apply List.exists_cons_of_ne_nil
    intro empty
    rw [empty] at data
    revert data
    decide
  have letter : Text.isWhitespace c = false := (nameChar_plain (letters c (by rw [name]; exact List.mem_cons_self))).1
  have whole : file.shown ++ rest = '@' :: (DataFile.word ++ (file.white ++ (file.name ++ rest))) := by
    simp [DataFile.shown, List.append_assoc]
  have noMore : (file.name ++ rest).takeWhile Text.isWhitespace = [] := by
    rw [name, List.cons_append, List.takeWhile_cons_of_neg (by simp [letter])]
  have blank : (file.white ++ (file.name ++ rest)).takeWhile Text.isWhitespace = file.white := by
    rw [List.takeWhile_append_of_pos white, noMore, List.append_nil]
  have behind : (file.white ++ (file.name ++ rest)).dropWhile Text.isWhitespace = file.name ++ rest := by
    rw [List.dropWhile_append_of_pos white, name, List.cons_append, List.dropWhile_cons_of_neg (by simp [letter])]
  rw [whole, DataFile.find, Text.stripStart_append]
  dsimp only
  rw [blank, behind, if_neg spaced, List.takeWhile_append_of_pos letters, most, Option.map_some]

theorem found_of_find {file : DataFile} {s : Text} (here : DataFile.find s = some file) :
    ∃ rest, s = file.shown ++ rest ∧ Found file rest := by
  unfold DataFile.find at here
  split at here
  · rename_i s
    split at here
    · cases here
    · rename_i rest stripped
      dsimp only at here
      split at here
      · cases here
      · rename_i spaced
        obtain ⟨name, most, rfl⟩ := Option.map_eq_some_iff.mp here
        obtain ⟨front, -⟩ := longest_some most
        have letters : ∀ c ∈ name, nameChar c = true := fun c member => List.mem_takeWhile_imp (front.subset member)
        obtain ⟨more, split⟩ := front.trans (List.takeWhile_prefix nameChar)
        refine ⟨more, ?_, spaced, fun c member => List.mem_takeWhile_imp member, letters, ?_⟩
        · rw [Text.stripStart_some stripped, DataFile.shown, List.cons_append, List.append_assoc, List.append_assoc, split,
            List.takeWhile_append_dropWhile]
        · rw [← split, List.takeWhile_append_of_pos letters] at most
          exact most
  · cases here

theorem at_not_mem_word : '@' ∉ DataFile.word := by decide

theorem find_near (s : Text) : DataFile.find ('@' :: s) = DataFile.find ('@' :: upTo '@' s) := by
  by_cases front : DataFile.word <+: s
  · obtain ⟨rest, rfl⟩ := front
    rw [upTo_append at_not_mem_word, DataFile.find, DataFile.find, Text.stripStart_append, Text.stripStart_append]
    dsimp only
    rw [takeWhile_upTo (by decide), dropWhile_upTo (by decide), takeWhile_upTo (by decide)]
  · have near : ¬ DataFile.word <+: upTo '@' s := fun inside => front (inside.trans (List.takeWhile_prefix _))
    rw [DataFile.find, DataFile.find, Text.stripStart_of_not front, Text.stripStart_of_not near]

def DataFile.recogniser : Recogniser Char DataFile where
  mark := '@'
  recognise := DataFile.find
  shown := DataFile.shown
  marked _ := rfl
  shows here := by
    obtain ⟨rest, rfl, -⟩ := found_of_find here
    exact List.prefix_append _ _
  near := find_near

/-- `rewrite_pm_from_file_paths`. -/
def rewritePmFromFilePaths (dataDir : Text) (source : Text) : Text :=
  DataFile.recogniser.replaceAll (fun file => "@pmFromFile ".toList ++ joinPath dataDir file.name) source

theorem rewrite_eq (dataDir : Text) : rewritePmFromFilePaths dataDir =
    DataFile.recogniser.replaceAll fun file => DataFile.recogniser.shown (file.rooted dataDir) := rfl

section
variable {dataDir : Text}

theorem joinPath_eq (dataDir name : Text) :
    ∃ front, joinPath dataDir name = front ++ name ∧ ∀ c ∈ front, c ∈ dataDir ∨ c = '/' := by
  unfold joinPath
  split
  · exact ⟨[], rfl, List.forall_mem_nil _⟩
  · split
    · exact ⟨dataDir, rfl, fun c member => .inl member⟩
    · refine ⟨dataDir ++ ['/'], by simp, fun c member => ?_⟩
      simpa using member

theorem isDataName_append (front : Text) {name : Text} (long : 5 < name.length) :
    isDataName (front ++ name) = isDataName name := by
  have suffix : ".data".toList <:+ front ++ name ↔ ".data".toList <:+ name := by
    constructor
    · exact fun inside => List.suffix_of_suffix_length_le inside (List.suffix_append _ _) (Nat.le_of_lt long)
    · exact fun inside => inside.trans (List.suffix_append _ _)
  have longer : 5 < (front ++ name).length := by rw [List.length_append]; omega
  rw [isDataName, isDataName, decide_eq_true long, decide_eq_true longer, Bool.eq_iff_iff, Bool.true_and, Bool.true_and,
    List.isSuffixOf_iff_suffix, List.isSuffixOf_iff_suffix, suffix]

/-- A reference stays one when its name is rooted in a directory whose own name the pattern can match. -/
theorem Found.rooted (plain : ∀ c ∈ dataDir, nameChar c = true) {file : DataFile} {rest : Text} (found : Found file rest) :
    Found (file.rooted dataDir) rest := by
  obtain ⟨front, joined, letters⟩ := joinPath_eq dataDir file.name
  have data := (longest_some found.most).2
  have long : 5 < file.name.length := by
    rw [isDataName, Bool.and_eq_true, decide_eq_true_eq] at data
    exact data.1
  refine ⟨List.cons_ne_nil _ _, List.forall_mem_singleton.mpr rfl, ?_, ?_⟩
  · rw [DataFile.rooted, joined]
    refine List.forall_mem_append.mpr ⟨fun c member => ?_, found.letters⟩
    rcases letters c member with inDir | rfl
    · exact plain c inDir
    · rfl
  · rw [DataFile.rooted, joined, List.append_assoc]
    refine longest_append front (longest_congr found.most fun t longer => ?_)
    exact isDataName_append front (Nat.lt_of_lt_of_le long longer)

theorem keeps_rooted (plain : ∀ c ∈ dataDir, nameChar c = true) (file : DataFile) (s : Text)
    (here : DataFile.recogniser.recognise (DataFile.recogniser.shown file ++ s) = some file) :
    DataFile.recogniser.recognise (DataFile.recogniser.shown (file.rooted dataDir) ++ s) = some (file.rooted dataDir) := by
  have matched : DataFile.find (file.shown ++ s) = some file := here
  obtain ⟨rest, same, found⟩ := found_of_find matched
  obtain rfl : s = rest := List.append_cancel_left same
  exact (found.rooted plain).find

theorem rooted_rooted (absolute : dataDir.head? = some '/') (file : DataFile) :
    (file.rooted dataDir).rooted dataDir = file.rooted dataDir := by
  have head : (joinPath dataDir file.name).head? = some '/' := by
    cases dataDir with
    | nil => cases absolute
    | cons c more =>
      unfold joinPath
      split
      · assumption
      · split <;> exact absolute
  rw [DataFile.rooted, DataFile.rooted]
  exact congrArg (DataFile.mk [' ']) (if_pos head)

theorem rewrite_rewrite (plain : ∀ c ∈ dataDir, nameChar c = true) (absolute : dataDir.head? = some '/') (source : Text) :
    rewritePmFromFilePaths dataDir (rewritePmFromFilePaths dataDir source) = rewritePmFromFilePaths dataDir source := by
  rw [rewrite_eq]
  exact Recogniser.replaceAll_idem (keeps_rooted plain) (rooted_rooted absolute) source

/-- The rewritten source is the source with the names of its phrase files rooted: these are its phrase files, and the
text around them is as it was. Rewriting it again changes nothing, if the directory is absolute. -/
theorem phrase_files_rooted (plain : ∀ c ∈ dataDir, nameChar c = true) (source : Text) :
    DataFile.recogniser.pieces (rewritePmFromFilePaths dataDir source) =
        (DataFile.recogniser.pieces source).map (Sum.map id (DataFile.rooted dataDir)) ∧
      (dataDir.head? = some '/' → rewritePmFromFilePaths dataDir (rewritePmFromFilePaths dataDir source) =
        rewritePmFromFilePaths dataDir source) := by
  constructor
  · rw [rewrite_eq]
    exact Recogniser.pieces_replaceAll (keeps_rooted plain) source
  · exact fun absolute => rewrite_rewrite plain absolute source

end

-- Files

/-- A file of the directory, by its name; its text may fail to be read. -/
structure ConfFile where
  name : String
  text : Option Text

/-- `Path::extension`: what is behind the last dot, if something is in front of it. -/
def extension (name : Text) : Option Text :=
  match name.reverse.dropWhile (· ≠ '.') with
  | [] => none
  | [_] => none
  | _ => some (name.reverse.takeWhile (· ≠ '.')).reverse

def ConfFile.isConf (file : ConfFile) : Bool := extension file.name.toList == some "conf".toList

structure ConfDir where
  present : Bool
  listing : Option (List (Option ConfFile))

def confFiles (files : List ConfFile) : List ConfFile :=
  (files.filter ConfFile.isConf).insertionSort fun a b => a.name ≤ b.name

structure Loaded where
  source : Text
  ruleCount : Nat
  ruleTags : AssocMap UInt32 (List String)

section
variable (platform : Platform) (ipNet : IpNetParser) (compile : Text → Option Runtime) (dataDir : Text)

def loadConf (loaded : Loaded) (file : ConfFile) : Option Loaded :=
  file.text.map fun rawSrc =>
    let src := rewritePmFromFilePaths dataDir rawSrc
    let items := parseConf platform ipNet src
    let source := loaded.source ++ src
    { source := if source.getLast? = some '\n' then source else source ++ ['\n']
      ruleCount := loaded.ruleCount + items.length
      ruleTags := collectRuleTags items loaded.ruleTags }

/-- `CrsRuleset::load_from_dir`, with the rule count. Entries that cannot be read are passed over; a rule file that
cannot be read, and a source the runtime does not compile, are errors. -/
def loadFromDir (confDir : ConfDir) : Option (CrsRuleset × Nat) :=
  let loaded :=
    if confDir.present then
      confDir.listing.bind fun entries =>
        (confFiles (entries.filterMap id)).foldlM (loadConf platform ipNet dataDir) ⟨[], 0, .empty⟩
    else some ⟨[], 0, .empty⟩
  loaded.bind fun loaded => (compile loaded.source).map fun runtime =>
    (rulesetOf loaded.ruleTags runtime, loaded.ruleCount)

structure SameConf (file other : ConfFile) : Prop where
  name : other.name = file.name
  text : other.text = file.text ∨ other.text = file.text.map (rewritePmFromFilePaths dataDir)

variable {platform ipNet compile dataDir}

theorem loadConf_same (plain : ∀ c ∈ dataDir, nameChar c = true) (absolute : dataDir.head? = some '/') (loaded : Loaded)
    {file other : ConfFile} (same : SameConf dataDir file other) :
    loadConf platform ipNet dataDir loaded other = loadConf platform ipNet dataDir loaded file := by
  rw [loadConf, loadConf]
  rcases same.text with kept | rewritten
  · rw [kept]
  · rw [rewritten, Option.map_map]
    congr 1
    funext rawSrc
    rw [Function.comp_apply, rewrite_rewrite plain absolute]

theorem loadAll_same (plain : ∀ c ∈ dataDir, nameChar c = true) (absolute : dataDir.head? = some '/')
    {files others : List ConfFile} (same : List.Forall₂ (SameConf dataDir) files others) (loaded : Loaded) :
    others.foldlM (loadConf platform ipNet dataDir) loaded = files.foldlM (loadConf platform ipNet dataDir) loaded := by
  induction same generalizing loaded with
  | nil => rfl
  | cons here _ ih =>
    rw [List.foldlM_cons, List.foldlM_cons, loadConf_same plain absolute loaded here]
    exact bind_congr ih

/-- Files of different names are loaded in one order, however they are listed. -/
theorem confFiles_perm {files others : List ConfFile} (perm : files.Perm others) (distinct : (files.map ConfFile.name).Nodup) :
    confFiles files = confFiles others := by
  have : Std.Total fun a b : ConfFile => a.name ≤ b.name := ⟨fun a b => String.le_total a.name b.name⟩
  have : IsTrans ConfFile fun a b => a.name ≤ b.name := ⟨fun _ _ _ => String.le_trans⟩
  have sorted (l : List ConfFile) : (l.insertionSort fun a b => a.name ≤ b.name).Perm l := List.perm_insertionSort _ l
  refine List.Perm.eq_of_pairwise (fun a b inFiles inOthers low high => ?_) (List.pairwise_insertionSort _ _)
    (List.pairwise_insertionSort _ _) (((sorted _).trans (perm.filter _)).trans (sorted _).symm)
  have first : a ∈ files := List.mem_of_mem_filter ((sorted _).mem_iff.mp inFiles)
  have second : b ∈ files := perm.mem_iff.mpr (List.mem_of_mem_filter ((sorted _).mem_iff.mp inOthers))
  exact List.inj_on_of_nodup_map distinct first second (String.le_antisymm low high)

theorem confFiles_same {files others : List ConfFile} (same : List.Forall₂ (SameConf dataDir) files others) :
    List.Forall₂ (SameConf dataDir) (confFiles files) (confFiles others) := by
  refine StableSort.forall₂_insertionSort ?_ (List.rel_filter (fun a x here => ?_) same)
  · intro a b x y first second
    rw [first.name, second.name]
  · simp only [ConfFile.isConf, here.name]

/-- A directory is loaded the same in whatever order its files are listed, and with the names of phrase files rooted
before in some of them. -/
theorem load_stable (plain : ∀ c ∈ dataDir, nameChar c = true) (absolute : dataDir.head? = some '/')
    {entries others : List (Option ConfFile)} (distinct : ((entries.filterMap id).map ConfFile.name).Nodup)
    {files : List ConfFile} (listed : files.Perm (entries.filterMap id))
    (same : List.Forall₂ (SameConf dataDir) files (others.filterMap id)) :
    loadFromDir platform ipNet compile dataDir ⟨true, some others⟩ =
      loadFromDir platform ipNet compile dataDir ⟨true, some entries⟩ := by
  have sorted : List.Forall₂ (SameConf dataDir) (confFiles (entries.filterMap id)) (confFiles (others.filterMap id)) := by
    rw [confFiles_perm listed.symm distinct]
    exact confFiles_same same
  rw [loadFromDir, loadFromDir, if_pos rfl, if_pos rfl, Option.bind_some, Option.bind_some,
    loadAll_same plain absolute sorted]

end

-- Two files, one of them with its phrase file rooted already

def phraseSource : Text := "SecRule ARGS \"@pmFromFile  sql.data\" \"id:942101,tag:'sqli'\"".toList

def crsDir : Text := "/etc/crs/".toList

theorem crsDir_plain : ∀ c ∈ crsDir, nameChar c = true := List.all_eq_true.mp (by decide)

theorem phrase_files_rooted_sqli :
    DataFile.recogniser.pieces (rewritePmFromFilePaths crsDir phraseSource) =
        (DataFile.recogniser.pieces phraseSource).map (Sum.map id (DataFile.rooted crsDir)) ∧
      rewritePmFromFilePaths crsDir (rewritePmFromFilePaths crsDir phraseSource) =
        rewritePmFromFilePaths crsDir phraseSource := by
  obtain ⟨pieces, again⟩ := phrase_files_rooted crsDir_plain phraseSource
  exact ⟨pieces, again rfl⟩

example : String.ofList (rewritePmFromFilePaths crsDir phraseSource) =
    "SecRule ARGS \"@pmFromFile /etc/crs/sql.data\" \"id:942101,tag:'sqli'\"" := by decide +kernel

def sqlConf : ConfFile := ⟨"REQUEST-942.conf", some phraseSource⟩

def xssConf : ConfFile := ⟨"REQUEST-941.conf", some "SecRule ARGS \"@detectXSS\" \"id:941100\"".toList⟩

theorem load_stable_two :
    loadFromDir .plain (fun _ => none) (fun _ => some fun _ => none) crsDir ⟨true, some
        [none, some { sqlConf with text := sqlConf.text.map (rewritePmFromFilePaths crsDir) }, some xssConf]⟩ =
      loadFromDir .plain (fun _ => none) (fun _ => some fun _ => none) crsDir ⟨true, some [some xssConf, some sqlConf]⟩ := by
  have same : List.Forall₂ (SameConf crsDir) [sqlConf, xssConf]
      [{ sqlConf with text := sqlConf.text.map (rewritePmFromFilePaths crsDir) }, xssConf] :=
    .cons ⟨rfl, .inr rfl⟩ (.cons ⟨rfl, .inl rfl⟩ .nil)
  exact load_stable crsDir_plain rfl (by decide) (List.Perm.swap xssConf sqlConf []) same

end MiniWaf.Crs
