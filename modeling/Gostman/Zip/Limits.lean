import Gostman.Zip.Reader
import Mathlib.Algebra.GroupWithZero.Nat
/-!
# The limits of reading an archive

The view is never read outside the buffer, and the names and the number of the
files are as promised.  Their sizes are, unless the last file is a stored one
that holds more bytes than its header says.
-/

namespace Gostman.Zip

def Inside {α : Type} (result : Except Failure α) : Prop :=
  result ≠ .error .outside

section Inside

variable {α β : Type}

theorem inside_ok (value : α) : Inside (.ok value) := by
  intro h
  cases h

theorem inside_pure (value : α) : Inside (pure value) := inside_ok value

theorem inside_error {failure : Failure} (h : failure ≠ .outside) : Inside (.error failure : Except Failure α) := by
  intro heq
  cases heq
  exact h rfl

theorem inside_bind {first : Except Failure α} {next : α → Except Failure β} (h : Inside first)
    (hnext : ∀ value, first = .ok value → Inside (next value)) : Inside (first >>= next) := by
  cases hfirst : first with
  | error failure =>
    intro heq
    apply h
    rw [hfirst]
    cases heq
    rfl
  | ok value => exact hnext value hfirst

theorem bind_eq_ok {first : Except Failure α} {next : α → Except Failure β} {result : β} :
    (first >>= next) = .ok result ↔ ∃ value, first = .ok value ∧ next value = .ok result := by
  cases first with
  | error failure =>
    constructor
    · intro h
      cases h
    · rintro ⟨value, h, -⟩
      cases h
  | ok value =>
    constructor
    · intro h
      exact ⟨value, rfl, h⟩
    · rintro ⟨other, h, hnext⟩
      cases h
      exact hnext

end Inside

/-! ## The view -/

theorem inside_byteAt {view : Bytes} {offset : Nat} (h : offset < view.length) : Inside (byteAt view offset) := by
  unfold byteAt
  rw [List.getElem?_eq_getElem h]
  exact inside_ok _

theorem inside_getUint16 {view : Bytes} {offset : Nat} (h : offset + 2 ≤ view.length) :
    Inside (getUint16 view offset) := by
  apply inside_bind (inside_byteAt (by omega))
  intro low _
  apply inside_bind (inside_byteAt (by omega))
  intro high _
  exact inside_pure _

theorem inside_getUint32 {view : Bytes} {offset : Nat} (h : offset + 4 ≤ view.length) :
    Inside (getUint32 view offset) := by
  apply inside_bind (inside_getUint16 (by omega))
  intro low _
  apply inside_bind (inside_getUint16 (by omega))
  intro high _
  exact inside_pure _

/-! ## The directory of the archive -/

theorem inside_endBelow {view : Bytes} {lowest next : Nat} (h : next + endRecordBytes ≤ view.length + 1) :
    Inside (endBelow view lowest next) := by
  unfold endRecordBytes at h
  induction next with
  | zero => exact inside_error nofun
  | succ offset ih =>
    rw [endBelow]
    split_ifs with hlow
    · exact inside_error nofun
    · apply inside_bind (inside_getUint32 (by omega))
      intro signature _
      split_ifs with hsignature
      · exact inside_pure offset
      · exact ih (by omega)

theorem lt_of_endBelow {view : Bytes} {lowest next found : Nat} (h : endBelow view lowest next = .ok found) :
    found < next := by
  induction next with
  | zero => cases h
  | succ offset ih =>
    rw [endBelow] at h
    split_ifs at h with hlow
    obtain ⟨signature, -, hnext⟩ := bind_eq_ok.1 h
    split_ifs at hnext with hsignature
    · cases hnext
      omega
    · have hlt := ih hnext
      omega

theorem inside_findEnd (view : Bytes) : Inside (findEnd view) := by
  unfold findEnd
  by_cases hshort : view.length + 1 ≤ endRecordBytes
  · rw [Nat.sub_eq_zero_of_le hshort]
    exact inside_error nofun
  · exact inside_endBelow (by omega)

theorem le_of_findEnd {view : Bytes} {found : Nat} (h : findEnd view = .ok found) :
    found + endRecordBytes ≤ view.length := by
  have hlt := lt_of_endBelow h
  omega

theorem inside_entriesFrom (browser : Browser) (view : Bytes) (count offset : Nat) :
    Inside (entriesFrom browser view count offset) := by
  induction count generalizing offset with
  | zero => exact inside_pure []
  | succ count ih =>
    rw [entriesFrom]
    split_ifs with hshort
    · exact inside_error nofun
    · unfold centralHeaderBytes at hshort
      apply inside_bind (inside_getUint32 (by omega))
      intro signature _
      split_ifs with hsignature
      · exact inside_error nofun
      · apply inside_bind (inside_getUint16 (by omega))
        intro nameLength _
        apply inside_bind (inside_getUint16 (by omega))
        intro extraLength _
        apply inside_bind (inside_getUint16 (by omega))
        intro commentLength _
        apply inside_bind (inside_getUint16 (by omega))
        intro flags _
        apply inside_bind (inside_getUint16 (by omega))
        intro method _
        apply inside_bind (inside_getUint32 (by omega))
        intro compressedSize _
        apply inside_bind (inside_getUint32 (by omega))
        intro size _
        apply inside_bind (inside_getUint32 (by omega))
        intro header _
        apply inside_bind (ih _)
        intro rest _
        exact inside_pure _

theorem length_entriesFrom {browser : Browser} {view : Bytes} {count offset : Nat} {entries : List Entry}
    (h : entriesFrom browser view count offset = .ok entries) : entries.length = count := by
  induction count generalizing offset entries with
  | zero =>
    cases h
    rfl
  | succ count ih =>
    rw [entriesFrom] at h
    split_ifs at h with hshort
    obtain ⟨signature, -, h⟩ := bind_eq_ok.1 h
    split_ifs at h with hsignature
    simp only [bind_eq_ok] at h
    obtain ⟨nameLength, -, extraLength, -, commentLength, -, flags, -, method, -, compressedSize, -, size, -, header, -,
      rest, hrest, hentries⟩ := h
    cases hentries
    rw [List.length_cons, ih hrest]

theorem inside_listEntries (browser : Browser) (view : Bytes) (limits : Limits) :
    Inside (listEntries browser view limits) := by
  apply inside_bind (inside_findEnd view)
  intro found hfound
  have hend := le_of_findEnd hfound
  unfold endRecordBytes at hend
  apply inside_bind (inside_getUint16 (by omega))
  intro count _
  split_ifs with hzip64 hmany
  · exact inside_error nofun
  · exact inside_error nofun
  · apply inside_bind (inside_getUint32 (by omega))
    intro offset _
    exact inside_entriesFrom browser view count offset

theorem length_listEntries {browser : Browser} {view : Bytes} {limits : Limits} {entries : List Entry}
    (h : listEntries browser view limits = .ok entries) : entries.length ≤ limits.files := by
  obtain ⟨found, -, h⟩ := bind_eq_ok.1 h
  obtain ⟨count, -, h⟩ := bind_eq_ok.1 h
  split_ifs at h with hzip64 hmany
  obtain ⟨offset, -, h⟩ := bind_eq_ok.1 h
  have hlength := length_entriesFrom h
  omega

/-! ## What an entry holds -/

/-- The bytes of an entry, as far as the buffer has them. -/
def held (view : Bytes) (entry : Entry) : Except Failure Bytes :=
  if view.length < entry.local' + localHeaderBytes then .error .notZip
  else do
    let signature ← getUint32 view entry.local'
    if signature ≠ localSignature then .error .notZip
    else do
      let nameLength ← getUint16 view (entry.local' + 26)
      let extraLength ← getUint16 view (entry.local' + 28)
      let start := entry.local' + localHeaderBytes + nameLength + extraLength;
      pure (subarray view start (start + entry.compressedSize))

inductive Unpacks (browser : Browser) (view : Bytes) (entry : Entry) : Bytes → Prop
  | stored {blob : Bytes} (plain : entry.flags &&& flagEncrypted = 0) (held_eq : held view entry = .ok blob)
      (method : entry.method = methodStored) : Unpacks browser view entry blob
  | inflated {compressed : Bytes} (plain : entry.flags &&& flagEncrypted = 0)
      (held_eq : held view entry = .ok compressed) (method : entry.method = methodDeflate)
      (done : (browser.inflateRaw compressed).done = true) :
      Unpacks browser view entry (browser.inflateRaw compressed).chunks.flatten

theorem inside_held (view : Bytes) (entry : Entry) : Inside (held view entry) := by
  unfold held
  split_ifs with hshort
  · exact inside_error nofun
  · unfold localHeaderBytes at hshort
    apply inside_bind (inside_getUint32 (by omega))
    intro signature _
    split_ifs with hsignature
    · exact inside_error nofun
    · apply inside_bind (inside_getUint16 (by omega))
      intro nameLength _
      apply inside_bind (inside_getUint16 (by omega))
      intro extraLength _
      exact inside_pure _

theorem held_bind {α : Type} (view : Bytes) (entry : Entry) (next : Bytes → Except Failure α) :
    held view entry >>= next =
      (if view.length < entry.local' + localHeaderBytes then .error .notZip
      else do
        let signature ← getUint32 view entry.local'
        if signature ≠ localSignature then .error .notZip
        else do
          let nameLength ← getUint16 view (entry.local' + 26)
          let extraLength ← getUint16 view (entry.local' + 28)
          let start := entry.local' + localHeaderBytes + nameLength + extraLength
          next (subarray view start (start + entry.compressedSize))) := by
  unfold held
  split_ifs with hshort
  · rfl
  · cases getUint32 view entry.local' with
    | error failure => rfl
    | ok signature =>
      by_cases hsignature : signature ≠ localSignature
      · simp only [bind, Except.bind, if_pos hsignature]
      · simp only [bind, Except.bind, if_neg hsignature]
        cases getUint16 view (entry.local' + 26) with
        | error failure => rfl
        | ok nameLength =>
          cases getUint16 view (entry.local' + 28) with
          | error failure => rfl
          | ok extraLength => rfl

/-- The bytes are taken as the method of the entry says. -/
def unpack (browser : Browser) (entry : Entry) (limit : Int) (compressed : Bytes) : Except Failure Bytes :=
  if entry.method = methodStored then pure compressed
  else if entry.method = methodDeflate then inflate browser compressed limit
  else .error .unsupported

theorem extract_eq (browser : Browser) (entry : Entry) (view : Bytes) (limit : Int) :
    extract browser entry view limit =
      if entry.flags &&& flagEncrypted ≠ 0 then .error .unsupported
      else if limit < entry.size then .error (.tooLarge limit)
      else held view entry >>= unpack browser entry limit := by
  rw [held_bind]
  rfl

theorem inside_takeChunks (limit : Int) (done : Bool) (chunks : List Bytes) (total : Nat) :
    Inside (takeChunks limit done chunks total) := by
  induction chunks generalizing total with
  | nil =>
    cases done with
    | true => exact inside_pure []
    | false => exact inside_error nofun
  | cons chunk rest ih =>
    rw [takeChunks]
    split_ifs with hlong
    · exact inside_error nofun
    · apply inside_bind (ih _)
      intro more _
      exact inside_pure _

theorem inside_extract (browser : Browser) (entry : Entry) (view : Bytes) (limit : Int) :
    Inside (extract browser entry view limit) := by
  rw [extract_eq]
  split_ifs with hencrypted hlarge
  · exact inside_error nofun
  · exact inside_error nofun
  · apply inside_bind (inside_held view entry)
    intro compressed _
    unfold unpack
    split_ifs with hstored hdeflate
    · exact inside_pure compressed
    · exact inside_takeChunks limit _ _ 0
    · exact inside_error nofun

/-- Chunks are taken up to the end of the stream as long as they fit. -/
theorem takeChunks_ok_iff {limit : Int} {done : Bool} {chunks : List Bytes} {total : Nat} {blob : Bytes}
    (h : (total : Int) ≤ limit) :
    takeChunks limit done chunks total = .ok blob ↔
      done = true ∧ blob = chunks.flatten ∧ (total + blob.length : Int) ≤ limit := by
  induction chunks generalizing total blob with
  | nil =>
    cases done with
    | true =>
      constructor
      · intro heq
        cases heq
        exact ⟨rfl, rfl, by simpa using h⟩
      · rintro ⟨-, rfl, -⟩
        rfl
    | false =>
      constructor
      · intro heq
        cases heq
      · rintro ⟨hdone, -, -⟩
        cases hdone
  | cons chunk rest ih =>
    rw [takeChunks, List.flatten_cons]
    split_ifs with hlong
    · constructor
      · intro heq
        cases heq
      · rintro ⟨-, rfl, hfits⟩
        rw [List.length_append] at hfits
        omega
    · rw [bind_eq_ok]
      constructor
      · rintro ⟨more, hmore, heq⟩
        obtain ⟨hdone, hflat, hfits⟩ := (ih (Int.not_lt.1 hlong)).1 hmore
        cases heq
        refine ⟨hdone, by rw [hflat], ?_⟩
        rw [List.length_append]
        omega
      · rintro ⟨hdone, rfl, hfits⟩
        rw [List.length_append] at hfits
        exact ⟨rest.flatten, (ih (Int.not_lt.1 hlong)).2 ⟨hdone, rfl, by omega⟩, rfl⟩

/-- What `extract` gives: the stated size is within the limit, and what was
inflated as well. -/
theorem extract_ok_iff {browser : Browser} {entry : Entry} {view : Bytes} {limit : Int} {blob : Bytes} :
    extract browser entry view limit = .ok blob ↔
      Unpacks browser view entry blob ∧ entry.size ≤ limit ∧
        (entry.method = methodDeflate → (blob.length : Int) ≤ limit) := by
  rw [extract_eq]
  constructor
  · intro h
    split_ifs at h with hencrypted hlarge
    have hplain := not_not.1 hencrypted
    have hsize := Int.not_lt.1 hlarge
    obtain ⟨compressed, hheld, htaken⟩ := bind_eq_ok.1 h
    unfold unpack at htaken
    split_ifs at htaken with hstored hdeflate
    · cases htaken
      refine ⟨.stored hplain hheld hstored, hsize, ?_⟩
      intro hdeflate
      rw [hstored] at hdeflate
      cases hdeflate
    · obtain ⟨hdone, rfl, hfits⟩ := (takeChunks_ok_iff (by omega)).1 htaken
      exact ⟨.inflated hplain hheld hdeflate hdone, hsize, fun _ => by omega⟩
  · rintro ⟨hunpacks, hsize, hfits⟩
    cases hunpacks with
    | stored plain held_eq method =>
      rw [if_neg (not_not.2 plain), if_neg (Int.not_lt.2 hsize), bind_eq_ok]
      exact ⟨blob, held_eq, if_pos method⟩
    | inflated plain held_eq method done =>
      rw [if_neg (not_not.2 plain), if_neg (Int.not_lt.2 hsize), bind_eq_ok]
      refine ⟨_, held_eq, ?_⟩
      unfold unpack
      rw [if_neg (by rw [method]; decide), if_pos method]
      have hlength := hfits method
      exact (takeChunks_ok_iff (by omega)).2 ⟨done, rfl, by omega⟩

/-! ## The whole archive -/

def sizeOf (files : List File) : Nat :=
  (files.map fun file => file.blob.length).sum

theorem inside_extractAll (browser : Browser) (view : Bytes) (entries : List Entry) (remaining : Int) :
    Inside (extractAll browser view entries remaining) := by
  induction entries generalizing remaining with
  | nil => exact inside_pure []
  | cons entry rest ih =>
    rw [extractAll]
    split_ifs with hout
    · exact ih remaining
    · apply inside_bind (inside_extract browser entry view remaining)
      intro blob _
      apply inside_bind (ih _)
      intro files _
      exact inside_pure _

theorem inside_readZip (browser : Browser) (view : Bytes) (limits : Limits) :
    Inside (readZip browser view limits) := by
  apply inside_bind (inside_listEntries browser view limits)
  intro entries _
  exact inside_extractAll browser view entries limits.bytes

def kept (entries : List Entry) : List Entry :=
  entries.filter fun entry => !isLeftOut entry

/-- The files are those of the kept entries, in order. -/
theorem names_extractAll {browser : Browser} {view : Bytes} {entries : List Entry} {remaining : Int} {files : List File}
    (h : extractAll browser view entries remaining = .ok files) :
    files.map (fun file => file.name) = (kept entries).map fun entry => entry.name := by
  induction entries generalizing remaining files with
  | nil =>
    cases h
    rfl
  | cons entry rest ih =>
    rw [extractAll] at h
    unfold kept
    cases hout : isLeftOut entry with
    | true =>
      rw [hout, if_pos rfl] at h
      rw [List.filter_cons_of_neg (by rw [hout]; exact nofun)]
      exact ih h
    | false =>
      rw [hout, if_neg nofun] at h
      obtain ⟨blob, -, h⟩ := bind_eq_ok.1 h
      obtain ⟨more, hmore, h⟩ := bind_eq_ok.1 h
      cases h
      rw [List.filter_cons_of_pos (by rw [hout]; rfl), List.map_cons, List.map_cons, ih hmore]
      rfl

theorem extractAll_kept (browser : Browser) (view : Bytes) (entries : List Entry) (remaining : Int) :
    extractAll browser view (kept entries) remaining = extractAll browser view entries remaining := by
  induction entries generalizing remaining with
  | nil => rfl
  | cons entry rest ih =>
    unfold kept at ih ⊢
    cases hout : isLeftOut entry with
    | true =>
      rw [List.filter_cons_of_neg (by rw [hout]; exact nofun), ih, extractAll, hout, if_pos rfl]
    | false =>
      rw [List.filter_cons_of_pos (by rw [hout]; rfl), extractAll, extractAll, hout, if_neg nofun, if_neg nofun]
      simp only [ih]

/-- Every entry unpacks within what is left to it, and `left` is left after
them. -/
inductive Within (browser : Browser) (view : Bytes) : Int → List Entry → Int → Prop
  | nil {limit : Int} : Within browser view limit [] limit
  | cons {limit left : Int} {entry : Entry} {rest : List Entry} {blob : Bytes} (unpacks : Unpacks browser view entry blob)
      (stated : entry.size ≤ limit) (fits : (blob.length : Int) ≤ limit)
      (rest_within : Within browser view (limit - blob.length) rest left) : Within browser view limit (entry :: rest) left

/-- The last of these entries is stored and holds more bytes than are left to
it, which its stated size does not show. -/
def OverrunsAt (browser : Browser) (view : Bytes) (limit : Int) (entries : List Entry) : Prop :=
  ∃ before last left blob, entries = before ++ [last] ∧ Within browser view limit before left ∧
    Unpacks browser view last blob ∧ last.method = methodStored ∧ last.size ≤ left ∧ left < blob.length

theorem OverrunsAt.cons {browser : Browser} {view : Bytes} {limit : Int} {entry : Entry} {rest : List Entry} {blob : Bytes}
    (h : OverrunsAt browser view (limit - blob.length) rest) (unpacks : Unpacks browser view entry blob)
    (stated : entry.size ≤ limit) (fits : (blob.length : Int) ≤ limit) : OverrunsAt browser view limit (entry :: rest) := by
  obtain ⟨before, last, left, content, rfl, hwithin, hlast⟩ := h
  exact ⟨entry :: before, last, left, content, rfl, .cons unpacks stated fits hwithin, hlast⟩

theorem sizeOf_cons (file : File) (files : List File) : sizeOf (file :: files) = file.blob.length + sizeOf files := by
  rw [sizeOf, List.map_cons, List.sum_cons]
  rfl

/-- With more bytes than are left only an entry that holds none could follow,
and its stated size is too large for that. -/
theorem overrunsAt_of_extractAll {browser : Browser} {view : Bytes} {entries : List Entry} {limit : Int} {files : List File}
    (hkept : ∀ entry ∈ entries, isLeftOut entry = false) (h : extractAll browser view entries limit = .ok files)
    (hlimit : 0 ≤ limit) (hover : limit < sizeOf files) : OverrunsAt browser view limit entries := by
  induction entries generalizing limit files with
  | nil =>
    cases h
    change limit < 0 at hover
    omega
  | cons entry rest ih =>
    rw [extractAll, hkept entry List.mem_cons_self, if_neg nofun] at h
    obtain ⟨blob, hblob, h⟩ := bind_eq_ok.1 h
    obtain ⟨more, hmore, h⟩ := bind_eq_ok.1 h
    cases h
    rw [sizeOf_cons] at hover
    change limit < ((blob.length + sizeOf more : Nat) : Int) at hover
    obtain ⟨hunpacks, hstated, hdeflate⟩ := extract_ok_iff.1 hblob
    by_cases hfits : (blob.length : Int) ≤ limit
    · have hrest := ih (fun entry hmem => hkept entry (List.mem_cons_of_mem _ hmem)) hmore (by omega) (by omega)
      exact hrest.cons hunpacks hstated hfits
    · have hstored : entry.method = methodStored := by
        cases hunpacks with
        | stored plain held_eq method => exact method
        | inflated plain held_eq method done => exact absurd (hdeflate method) hfits
      cases rest with
      | nil => exact ⟨[], entry, limit, blob, rfl, .nil, hunpacks, hstored, hstated, by omega⟩
      | cons next rest =>
        rw [extractAll, hkept next (List.mem_cons_of_mem _ List.mem_cons_self), if_neg nofun] at hmore
        obtain ⟨content, hcontent, -⟩ := bind_eq_ok.1 hmore
        have hnext := (extract_ok_iff.1 hcontent).2.1
        omega

/-- Entries that unpack within the limit are all extracted. -/
theorem extractAll_of_within {browser : Browser} {view : Bytes} {before : List Entry} {last : Entry} {limit left : Int}
    {blob : Bytes} (h : Within browser view limit before left) (hkept : ∀ entry ∈ before ++ [last], isLeftOut entry = false)
    (hlast : extract browser last view left = .ok blob) :
    ∃ files, extractAll browser view (before ++ [last]) limit = .ok files ∧
      (sizeOf files : Int) = limit - left + blob.length := by
  induction h with
  | nil =>
    refine ⟨[{ name := last.name, blob }], ?_, ?_⟩
    · rw [List.nil_append, extractAll, hkept last List.mem_cons_self, if_neg nofun, hlast]
      rfl
    · rw [sizeOf_cons]
      change ((blob.length + 0 : Nat) : Int) = _
      omega
  | @cons limit left entry rest content unpacks stated fits rest_within ih =>
    obtain ⟨files, hfiles, hsize⟩ := ih (fun entry hmem => hkept entry (List.mem_cons_of_mem _ hmem)) hlast
    have hcontent : extract browser entry view limit = .ok content :=
      extract_ok_iff.2 ⟨unpacks, stated, fun _ => fits⟩
    refine ⟨{ name := entry.name, blob := content } :: files, ?_, ?_⟩
    · rw [List.cons_append, extractAll, hkept entry List.mem_cons_self, if_neg nofun, hcontent]
      change (extractAll browser view (rest ++ [last]) (limit - content.length) >>= _) = _
      rw [hfiles]
      rfl
    · rw [sizeOf_cons]
      change ((content.length + sizeOf files : Nat) : Int) = _
      omega

/-- No way out of a directory that the files are written into. -/
structure SafeName (name : List Char) : Prop where
  nonempty : name ≠ []
  relative : name.head? ≠ some '/'
  backslash : '\\' ∉ name
  colon : ':' ∉ name
  parts : ['.', '.'] ∉ name.splitOn '/'

theorem safeName_of_isSafeName {name : List Char} (h : isSafeName name = true) : SafeName name := by
  unfold isSafeName at h
  simp only [Bool.and_eq_true, bne_iff_ne, ne_eq, Bool.not_eq_true', beq_eq_false_iff_ne, List.contains_eq_mem,
    decide_eq_false_iff_not, List.any_eq_false, beq_iff_eq] at h
  obtain ⟨⟨⟨⟨hempty, hhead⟩, hbackslash⟩, hcolon⟩, hparts⟩ := h
  exact ⟨hempty, hhead, hbackslash, hcolon, fun hmem => hparts _ hmem rfl⟩

theorem safeName_of_mem_kept {entries : List Entry} {entry : Entry} (h : entry ∈ kept entries) : SafeName entry.name := by
  have hkept := (List.mem_filter.1 h).2
  unfold isLeftOut at hkept
  rw [Bool.not_or, Bool.not_not, Bool.and_eq_true] at hkept
  exact safeName_of_isSafeName hkept.2

structure Safe (limits : Limits) (result : Except Failure (List File)) : Prop where
  inside : result ≠ .error .outside
  files : ∀ files, result = .ok files → files.length ≤ limits.files
  bytes : ∀ files, result = .ok files → sizeOf files ≤ limits.bytes
  names : ∀ files, result = .ok files → ∀ file ∈ files, SafeName file.name

/-- The last file of the archive is a stored one that fits by its header and
holds too much. -/
def Overruns (browser : Browser) (view : Bytes) (limits : Limits) : Prop :=
  ∃ entries, listEntries browser view limits = .ok entries ∧ OverrunsAt browser view limits.bytes (kept entries)

theorem isLeftOut_of_mem_kept {entries : List Entry} {entry : Entry} (h : entry ∈ kept entries) :
    isLeftOut entry = false :=
  Bool.not_eq_true' _ ▸ (List.mem_filter.1 h).2

theorem overruns_of_readZip {browser : Browser} {view : Bytes} {limits : Limits} {files : List File}
    (h : readZip browser view limits = .ok files) (hover : limits.bytes < sizeOf files) :
    Overruns browser view limits := by
  obtain ⟨entries, hentries, hfiles⟩ := bind_eq_ok.1 h
  rw [← extractAll_kept] at hfiles
  exact ⟨entries, hentries,
    overrunsAt_of_extractAll (fun entry hmem => isLeftOut_of_mem_kept hmem) hfiles (by omega) (by omega)⟩

theorem readZip_of_overruns {browser : Browser} {view : Bytes} {limits : Limits} (h : Overruns browser view limits) :
    ∃ files, readZip browser view limits = .ok files ∧ limits.bytes < sizeOf files := by
  obtain ⟨entries, hentries, before, last, left, blob, hsplit, hwithin, hunpacks, hstored, hstated, hover⟩ := h
  have hlast : extract browser last view left = .ok blob := by
    refine extract_ok_iff.2 ⟨hunpacks, hstated, ?_⟩
    intro hdeflate
    rw [hstored] at hdeflate
    cases hdeflate
  have hkept : ∀ entry ∈ before ++ [last], isLeftOut entry = false := by
    rw [← hsplit]
    exact fun entry hmem => isLeftOut_of_mem_kept hmem
  obtain ⟨files, hfiles, hsize⟩ := extractAll_of_within hwithin hkept hlast
  refine ⟨files, ?_, by omega⟩
  rw [← hsplit, extractAll_kept] at hfiles
  exact bind_eq_ok.2 ⟨entries, hentries, hfiles⟩

/-- Reading keeps its promise for exactly the archives that do not overrun. -/
theorem safe_iff_not_overruns (browser : Browser) (view : Bytes) (limits : Limits) :
    Safe limits (readZip browser view limits) ↔ ¬Overruns browser view limits := by
  constructor
  · intro hsafe hover
    obtain ⟨files, hfiles, hsize⟩ := readZip_of_overruns hover
    have hle := hsafe.bytes files hfiles
    omega
  · intro hover
    refine ⟨inside_readZip browser view limits, ?_, ?_, ?_⟩
    · intro files hfiles
      obtain ⟨entries, hentries, hextracted⟩ := bind_eq_ok.1 hfiles
      have hnames := congrArg List.length (names_extractAll hextracted)
      rw [List.length_map, List.length_map] at hnames
      calc files.length = (kept entries).length := hnames
        _ ≤ entries.length := List.length_filter_le _ _
        _ ≤ limits.files := length_listEntries hentries
    · intro files hfiles
      by_contra hlarge
      exact hover (overruns_of_readZip hfiles (by omega))
    · intro files hfiles file hmem
      obtain ⟨entries, -, hextracted⟩ := bind_eq_ok.1 hfiles
      have hname : file.name ∈ (kept entries).map fun entry => entry.name := by
        rw [← names_extractAll hextracted]
        exact List.mem_map_of_mem hmem
      obtain ⟨entry, hentry, heq⟩ := List.mem_map.1 hname
      rw [← heq]
      exact safeName_of_mem_kept hentry

/-- One stored file `a` whose headers state no bytes, with one byte behind its
local header. -/
def overrunning : Bytes :=
  [0x50, 0x4b, 0x03, 0x04] ++ List.replicate 26 0 ++ [7] ++
    ([0x50, 0x4b, 0x01, 0x02] ++ List.replicate 16 0 ++ [1, 0, 0, 0] ++ List.replicate 4 0 ++ [1, 0] ++
      List.replicate 16 0 ++ [0x61]) ++
    ([0x50, 0x4b, 0x05, 0x06] ++ List.replicate 6 0 ++ [1, 0] ++ List.replicate 4 0 ++ [31, 0, 0, 0, 0, 0])

theorem not_safe_of_stored : ¬∀ (browser : Browser) (view : Bytes) (limits : Limits),
    Safe limits (readZip browser view limits) := by
  intro hsafe
  let browser : Browser := { decode := fun name => name.map fun b => Char.ofNat b.toNat, inflateRaw := fun _ => ⟨[], true⟩ }
  have hread : readZip browser overrunning { files := 1, bytes := 0 } = .ok [{ name := ['a'], blob := [7] }] := by
    decide +kernel
  have hsize := (hsafe browser overrunning { files := 1, bytes := 0 }).bytes _ hread
  exact absurd hsize (by decide)

end Gostman.Zip
