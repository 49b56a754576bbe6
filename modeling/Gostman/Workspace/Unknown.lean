import Gostman.Workspace.RequestFile
/-!
# Fields that are not known

A request file may hold fields of its own, in each of its mappings.  They are
read beside the known ones and written behind them, except in the sections of
`auth`, where they are dropped.
-/

namespace Gostman.Workspace

/-! ## Places in a request file -/

/-- The sections of `auth` that hold nothing but texts. -/
inductive AuthSection where
  | aws
  | oauth1
  | edgeGrid
  | jwt
  | asap
  | hawk
  | wsSecurity
deriving DecidableEq

namespace AuthSection

def key : AuthSection → String
  | aws => "aws"
  | oauth1 => "oauth1"
  | edgeGrid => "edgegrid"
  | jwt => "jwt"
  | asap => "asap"
  | hawk => "hawk"
  | wsSecurity => "wssecurity"

def known : AuthSection → List String
  | aws => awsFields
  | oauth1 => oauth1Fields
  | edgeGrid => edgeGridFields
  | jwt => jwtFields
  | asap => asapFields
  | hawk => hawkFields
  | wsSecurity => wsSecurityFields

end AuthSection

inductive Place where
  | top
  | auth
  | oauth2
  | options
  | authSection (part : AuthSection)

namespace Place

def path : Place → List String
  | top => []
  | auth => ["auth"]
  | oauth2 => ["auth", "oauth2"]
  | options => ["options"]
  | authSection part => ["auth", part.key]

def known : Place → List String
  | top => requestKeys
  | auth => authKeys
  | oauth2 => oauth2Keys
  | options => optionKeys
  | authSection part => part.known

end Place

def Node.under (node : Node) (key : String) : List Node :=
  (node.fields.filter fun field => field.1.value == key).map (·.2)

def nodesAt : List String → Node → List Node
  | [], node => [node]
  | key :: path, node => (node.under key).flatMap (nodesAt path)

/-- What is read at the end of a path: of two fields with one name the later
one counts. -/
def readAt : List String → Node → Option Node
  | [], node => some node
  | key :: path, node => (node.under key).getLast?.bind (readAt path)

def PresentAt (place : Place) (root : Node) (field : Node × Node) : Prop :=
  ∃ node ∈ nodesAt place.path root, field ∈ node.fields

def UnknownAt (place : Place) (root : Node) (field : Node × Node) : Prop :=
  PresentAt place root field ∧ field.1.value ∉ place.known

/-! ## Reading -/

def Gives {ε α : Type} (computation : Except ε α) (good : α → Prop) : Prop :=
  ∀ value, computation = .ok value → good value

theorem gives_pure {ε α : Type} {value : α} {good : α → Prop} (h : good value) :
    Gives (pure value : Except ε α) good := by
  intro other hother
  cases hother
  exact h

theorem gives_bind {ε α β : Type} {computation : Except ε α} {next : α → Except ε β}
    {good : β → Prop} (h : ∀ value, computation = .ok value → Gives (next value) good) :
    Gives (computation >>= next) good := by
  cases computation with
  | error e =>
    intro value hvalue
    cases hvalue
  | ok value => exact h value rfl

/-- The fields of a mapping that are not among the known ones. -/
def unknownOf (known : List String) (node : Option Node) : Fields :=
  ((node.map Node.fields).getD []).filter fun field => field.1.value ∉ known

/-- What `readFields` is to give: the known fields in their order and the
others in theirs. -/
structure Sorted (known : List String) (fields : Fields) (reader : FieldReader) : Prop where
  extras : reader.extras = fields.filter fun field => field.1.value ∉ known
  fields : reader.fields = (fields.filter fun field => field.1.value ∈ known).map
    fun field => (field.1.value, field.2)

theorem sortFields_sorted (known : List String) (fields : Fields) :
    Gives (sortFields known fields) (Sorted known fields) := by
  induction fields with
  | nil => exact gives_pure ⟨rfl, rfl⟩
  | cons field rest ih =>
    obtain ⟨key, value⟩ := field
    unfold sortFields
    by_cases hscalar : key.isScalar
    · rw [if_pos hscalar]
      apply gives_bind
      intro reader hreader
      obtain ⟨hextras, hfields⟩ := ih reader hreader
      by_cases hknown : key.value ∈ known
      · rw [if_pos hknown]
        exact gives_pure ⟨by simp [hknown, hextras], by simp [hknown, hfields]⟩
      · rw [if_neg hknown]
        exact gives_pure ⟨by simp [hknown, hextras], by simp [hknown, hfields]⟩
    · rw [if_neg hscalar]
      intro reader hreader
      cases hreader

theorem readFields_sorted (known : List String) (node : Option Node) :
    Gives (readFields node known) (Sorted known ((node.map Node.fields).getD [])) := by
  unfold readFields
  split
  · exact gives_pure ⟨rfl, rfl⟩
  · exact sortFields_sorted known _
  · intro reader hreader
    cases hreader

/-- A known field is read where it stands last. -/
theorem Sorted.get_eq {known : List String} {node : Option Node} {reader : FieldReader}
    (h : Sorted known ((node.map Node.fields).getD []) reader) {key : String} (hkey : key ∈ known) :
    reader.get key = node.bind (readAt [key]) := by
  have hsame : ∀ fields : Fields,
      (((fields.filter fun field => field.1.value ∈ known).map fun field =>
        (field.1.value, field.2)).reverse.find? fun field => field.1 == key).map (·.2) =
      ((fields.filter fun field => field.1.value == key).map (·.2)).getLast? := by
    intro fields
    have hkeep : (fields.filter fun field => field.1.value == key) =
        (fields.filter fun field => field.1.value ∈ known).filter fun field =>
          field.1.value == key := by
      rw [List.filter_filter]
      apply List.filter_congr
      intro field _
      by_cases heq : field.1.value = key <;> simp [heq, hkey]
    rw [← List.head?_filter, List.filter_reverse, List.head?_reverse, List.filter_map, hkeep,
      List.getLast?_map, List.getLast?_map, Option.map_map]
    rfl
  unfold FieldReader.get
  rw [h.fields, hsame]
  cases node with
  | none => rfl
  | some node => simp [readAt, Node.under]

section

variable {out : Outside}

theorem readOAuth2_extras (node : Option Node) :
    Gives (readOAuth2 out node) fun found => found.2 = unknownOf oauth2Keys node := by
  unfold readOAuth2
  apply gives_bind
  intro fields hfields
  have hextras := (readFields_sorted oauth2Keys node fields hfields).extras
  iterate 15
    apply gives_bind
    intro _ _
  split
  · apply gives_bind
    intro _ _
    exact gives_pure hextras
  · exact gives_pure hextras

theorem readOptions_extras (node : Option Node) :
    Gives (readOptions out node) fun found => found.2 = unknownOf optionKeys node := by
  unfold readOptions
  apply gives_bind
  intro fields hfields
  have hextras := (readFields_sorted optionKeys node fields hfields).extras
  iterate 15
    apply gives_bind
    intro _ _
  exact gives_pure hextras

theorem readAuth_extras (node : Option Node) :
    Gives (readAuth out node) fun found =>
      found.2.1 = unknownOf authKeys node ∧
        found.2.2 = unknownOf oauth2Keys (node.bind (readAt ["oauth2"])) := by
  unfold readAuth
  apply gives_bind
  intro fields hfields
  have hsorted := readFields_sorted authKeys node fields hfields
  iterate 15
    apply gives_bind
    intro _ _
  apply gives_bind
  rintro ⟨oauth2, extras⟩ hoauth2
  have hextras := readOAuth2_extras _ _ hoauth2
  rw [hsorted.get_eq (by decide)] at hextras
  exact gives_pure ⟨hsorted.extras, hextras⟩

/-- The fields that are not known are held for each mapping but the sections
of `auth`. -/
theorem readRequest_extras (root : Node) :
    Gives (readRequest out root) fun document =>
      document.extras.request = unknownOf Place.top.known (readAt Place.top.path root) ∧
      document.extras.auth = unknownOf Place.auth.known (readAt Place.auth.path root) ∧
      document.extras.oauth2 = unknownOf Place.oauth2.known (readAt Place.oauth2.path root) ∧
      document.extras.options = unknownOf Place.options.known (readAt Place.options.path root) := by
  unfold readRequest
  apply gives_bind
  intro fields hfields
  have hsorted := readFields_sorted requestKeys _ fields hfields
  iterate 13
    apply gives_bind
    intro _ _
  apply gives_bind
  rintro ⟨auth, authExtras, oauth2Extras⟩ hauth
  have hauthExtras := readAuth_extras _ _ hauth
  rw [hsorted.get_eq (by decide)] at hauthExtras
  apply gives_bind
  rintro ⟨options, optionExtras⟩ hoptions
  have hoptionExtras := readOptions_extras _ _ hoptions
  rw [hsorted.get_eq (by decide)] at hoptionExtras
  iterate 18
    apply gives_bind
    intro _ _
  apply gives_pure
  have hpath : ((some root).bind (readAt ["auth"])).bind (readAt ["oauth2"]) =
      readAt ["auth", "oauth2"] root := by
    simp only [readAt, Option.bind_some, Option.bind_assoc]
  rw [hpath] at hauthExtras
  exact ⟨hsorted.extras, hauthExtras.1, hauthExtras.2, hoptionExtras⟩

end

/-! ## Writing -/

theorem mem_setFields {entries : List (String × Option Node)} {field : Node × Node} :
    field ∈ setFields entries ↔
      ∃ key, (key, some field.2) ∈ entries ∧ field.1 = keyNode key := by
  unfold setFields
  rw [List.mem_filterMap]
  constructor
  · rintro ⟨⟨key, value⟩, hmem, hfield⟩
    obtain ⟨node, rfl, rfl⟩ := Option.map_eq_some_iff.1 hfield
    exact ⟨key, hmem, rfl⟩
  · rintro ⟨key, hmem, hkey⟩
    exact ⟨_, hmem, by simp [← hkey]⟩

/-- A mapping is built of known fields and the extras. -/
structure Built (known : List String) (entries : List (String × Option Node)) (extras : Fields) :
    Prop where
  set : ∀ entry ∈ entries, entry.1 ∈ known
  extra : ∀ field ∈ extras, field.1.value ∉ known

namespace Built

variable {known : List String} {entries : List (String × Option Node)} {extras : Fields}

theorem mem_iff (h : Built known entries extras) {field : Node × Node}
    (hfield : field.1.value ∉ known) :
    field ∈ setFields entries ++ extras ↔ field ∈ extras := by
  rw [List.mem_append, or_iff_right]
  rw [mem_setFields]
  rintro ⟨key, hmem, hkey⟩
  apply hfield
  rw [hkey]
  exact h.set _ hmem

theorem mem_under (h : Built known entries extras) {key : String} (hkey : key ∈ known)
    {node : Node} :
    node ∈ (mappingNode (setFields entries ++ extras)).under key ↔ (key, some node) ∈ entries := by
  unfold Node.under mappingNode Node.fields
  simp only [List.mem_map, List.mem_filter, beq_iff_eq, List.mem_append, mem_setFields]
  constructor
  · rintro ⟨⟨name, value⟩, ⟨⟨set, hmem, rfl⟩ | hextra, rfl⟩, rfl⟩
    · exact hmem
    · exact absurd hkey (h.extra _ hextra)
  · intro hmem
    exact ⟨(keyNode key, node), ⟨Or.inl ⟨key, hmem, rfl⟩, rfl⟩, rfl⟩

end Built

theorem eq_of_filledMapping {fields : Fields} {node : Node}
    (h : filledMapping fields = some node) : node = mappingNode fields := by
  unfold filledMapping at h
  split_ifs at h
  cases h
  rfl

theorem filledMapping_of_mem {fields : Fields} {field : Node × Node} (h : field ∈ fields) :
    filledMapping fields = some (mappingNode fields) := by
  unfold filledMapping
  rw [if_neg]
  rw [List.isEmpty_iff]
  exact List.ne_nil_of_mem h

theorem Built.filled_iff {known : List String} {entries : List (String × Option Node)}
    {extras : Fields} (h : Built known entries extras) {field : Node × Node}
    (hfield : field.1.value ∉ known) :
    (∃ node, filledMapping (setFields entries ++ extras) = some node ∧ field ∈ node.fields) ↔
      field ∈ extras := by
  constructor
  · rintro ⟨node, hnode, hmem⟩
    rw [eq_of_filledMapping hnode] at hmem
    exact (h.mem_iff hfield).1 hmem
  · intro hmem
    have hall := (h.mem_iff hfield).2 hmem
    exact ⟨_, filledMapping_of_mem hall, hall⟩

section

variable (b : NodeBuilder)

theorem exists_request_fields (out : Outside) (document : RequestDocument) :
    ∃ entries, b.request out document =
        mappingNode (setFields entries ++ document.extras.request) ∧
      (∀ entry ∈ entries, entry.1 ∈ requestKeys) ∧
      (∀ node, ("auth", some node) ∈ entries ↔
        b.auth document.request.auth document.extras = some node) ∧
      (∀ node, ("options", some node) ∈ entries ↔
        b.options document.request.options document.extras.options = some node) := by
  refine ⟨_, rfl, ?_, ?_, ?_⟩
  · simp [requestKeys]
  · intro node
    simp [eq_comm]
  · intro node
    simp [eq_comm]

theorem exists_auth_fields (auth : Auth) (extras : RequestExtras) :
    ∃ entries, b.auth auth extras = filledMapping (setFields entries ++ extras.auth) ∧
      (∀ entry ∈ entries, entry.1 ∈ authKeys) ∧
      (∀ node, ("oauth2", some node) ∈ entries ↔ b.oauth2 auth.oauth2 extras.oauth2 = some node) ∧
      (∀ part : AuthSection, ∀ node, (part.key, some node) ∈ entries →
        ∃ values, b.textSection part.known values = some node) := by
  refine ⟨_, rfl, ?_, ?_, ?_⟩
  · simp [authKeys]
  · intro node
    simp [eq_comm]
  · intro part node h
    cases part <;> simp [AuthSection.key] at h <;> exact ⟨_, h.symm⟩

theorem exists_oauth2_fields (config : OAuth2) (extras : Fields) :
    ∃ entries, b.oauth2 config extras = filledMapping (setFields entries ++ extras) ∧
      ∀ entry ∈ entries, entry.1 ∈ oauth2Keys := by
  refine ⟨_, rfl, ?_⟩
  simp [oauth2Keys]

theorem exists_options_fields (options : Options) (extras : Fields) :
    ∃ entries, b.options options extras = filledMapping (setFields entries ++ extras) ∧
      ∀ entry ∈ entries, entry.1 ∈ optionKeys := by
  refine ⟨_, rfl, ?_⟩
  simp [optionKeys]

/-- A section of `auth` is written with its known fields only. -/
theorem mem_known_of_textSection {keys : List String} {values : Texts keys} {node : Node}
    (h : b.textSection keys values = some node) {field : Node × Node} (hfield : field ∈ node.fields) :
    field.1.value ∈ keys := by
  rw [eq_of_filledMapping h, mappingNode, Node.fields, mem_setFields] at hfield
  obtain ⟨key, hmem, hkey⟩ := hfield
  rw [hkey]
  exact (List.of_mem_zip hmem).1

end

/-! ## Reading and writing again -/

def RequestExtras.at (extras : RequestExtras) : Place → Fields
  | .top => extras.request
  | .auth => extras.auth
  | .oauth2 => extras.oauth2
  | .options => extras.options
  | .authSection _ => []

/-- The extras are what was not known where they were read. -/
def Held (root : Node) (extras : RequestExtras) : Prop :=
  ∀ place, (∀ part, place ≠ .authSection part) →
    extras.at place = unknownOf place.known (readAt place.path root)

theorem held_of_readRequest {out : Outside} {root : Node} {document : RequestDocument}
    (h : readRequest out root = .ok document) : Held root document.extras := by
  obtain ⟨hrequest, hauth, hoauth2, hoptions⟩ := readRequest_extras root document h
  intro place hplace
  cases place with
  | top => exact hrequest
  | auth => exact hauth
  | oauth2 => exact hoauth2
  | options => exact hoptions
  | authSection part => exact absurd rfl (hplace part)

theorem Held.unknown {root : Node} {extras : RequestExtras} (h : Held root extras) (place : Place) :
    ∀ field ∈ extras.at place, field.1.value ∉ place.known := by
  intro field hfield
  by_cases hplace : ∀ part, place ≠ .authSection part
  · rw [h place hplace, unknownOf, List.mem_filter] at hfield
    simpa using hfield.2
  · push Not at hplace
    obtain ⟨part, rfl⟩ := hplace
    cases hfield

/-- What is not known in the mapping that is written are the extras. -/
theorem presentAt_request {out : Outside} {root : Node} {document : RequestDocument}
    (h : Held root document.extras) (b : NodeBuilder) {place : Place} {field : Node × Node}
    (hfield : field.1.value ∉ place.known) :
    PresentAt place (b.request out document) field ↔ field ∈ document.extras.at place := by
  obtain ⟨entries, hroot, hset, hauthEntry, hoptionsEntry⟩ := exists_request_fields b out document
  have hbuilt : Built requestKeys entries document.extras.request := ⟨hset, h.unknown .top⟩
  obtain ⟨authEntries, hauth, hauthSet, hoauth2Entry, hpartEntry⟩ :=
    exists_auth_fields b document.request.auth document.extras
  have hauthBuilt : Built authKeys authEntries document.extras.auth := ⟨hauthSet, h.unknown .auth⟩
  obtain ⟨oauth2Entries, hoauth2, hoauth2Set⟩ :=
    exists_oauth2_fields b document.request.auth.oauth2 document.extras.oauth2
  obtain ⟨optionsEntries, hoptions, hoptionsSet⟩ :=
    exists_options_fields b document.request.options document.extras.options
  have hauthKey : "auth" ∈ requestKeys := by decide
  have hoauth2Key : "oauth2" ∈ authKeys := by decide
  -- what stands at a path of one or two known fields
  have hone : ∀ key ∈ requestKeys, ∀ node,
      node ∈ nodesAt [key] (mappingNode (setFields entries ++ document.extras.request)) ↔
        (key, some node) ∈ entries := by
    intro key hkey node
    simp only [nodesAt, List.mem_flatMap, List.mem_singleton, exists_eq_right']
    exact hbuilt.mem_under hkey
  have htwo : ∀ key ∈ authKeys, ∀ node,
      node ∈ nodesAt ["auth", key] (mappingNode (setFields entries ++ document.extras.request)) →
        (key, some node) ∈ authEntries := by
    intro key hkey node hnode
    rw [nodesAt, List.mem_flatMap] at hnode
    obtain ⟨authNode, hmem, hbelow⟩ := hnode
    rw [hbuilt.mem_under hauthKey, hauthEntry, hauth] at hmem
    rw [eq_of_filledMapping hmem] at hbelow
    simp only [nodesAt, List.mem_flatMap, List.mem_singleton, exists_eq_right'] at hbelow
    exact (hauthBuilt.mem_under hkey).1 hbelow
  rw [hroot]
  cases place with
  | top =>
    simp only [PresentAt, Place.path, nodesAt, List.mem_singleton, exists_eq_left]
    exact hbuilt.mem_iff hfield
  | auth =>
    simp only [PresentAt, Place.path, hone "auth" hauthKey, hauthEntry, hauth]
    exact hauthBuilt.filled_iff hfield
  | options =>
    simp only [PresentAt, Place.path, hone "options" (by decide), hoptionsEntry, hoptions]
    exact Built.filled_iff ⟨hoptionsSet, h.unknown .options⟩ hfield
  | oauth2 =>
    have hoauth2Built : Built oauth2Keys oauth2Entries document.extras.oauth2 :=
      ⟨hoauth2Set, h.unknown .oauth2⟩
    constructor
    · rintro ⟨node, hnode, hmem⟩
      have hentry := htwo "oauth2" hoauth2Key node hnode
      rw [hoauth2Entry, hoauth2] at hentry
      exact (hoauth2Built.filled_iff hfield).1 ⟨node, hentry, hmem⟩
    · intro hmem
      -- the mapping is not empty, so the one around it is not either
      obtain ⟨node, hnode, hheld⟩ := (hoauth2Built.filled_iff hfield).2 hmem
      have hentry : ("oauth2", some node) ∈ authEntries := (hoauth2Entry node).2 (hoauth2 ▸ hnode)
      have hset : (keyNode "oauth2", node) ∈ setFields authEntries ++ document.extras.auth :=
        List.mem_append_left _ (mem_setFields.2 ⟨"oauth2", hentry, rfl⟩)
      have hfilled := filledMapping_of_mem hset
      refine ⟨node, ?_, hheld⟩
      rw [Place.path, nodesAt, List.mem_flatMap]
      refine ⟨_, (hbuilt.mem_under hauthKey).2 ((hauthEntry _).2 (hauth.trans hfilled)), ?_⟩
      simp only [nodesAt, List.mem_flatMap, List.mem_singleton, exists_eq_right']
      exact (hauthBuilt.mem_under hoauth2Key).2 hentry
  | authSection part =>
    have hkey : part.key ∈ authKeys := by cases part <;> decide
    refine iff_of_false ?_ (by simp [RequestExtras.at])
    rintro ⟨node, hnode, hmem⟩
    obtain ⟨values, hvalues⟩ := hpartEntry part node (htwo part.key hkey node hnode)
    exact hfield (mem_known_of_textSection b hvalues hmem)

/-- Whatever is edited, each field that is not known stands where it stood. -/
def Survives (out : Outside) (root : Node) (extras : RequestExtras) : Prop :=
  ∀ (b : NodeBuilder) (request : Request) (order : Int) (place : Place) (field : Node × Node),
    UnknownAt place root field → PresentAt place (b.request out ⟨request, order, extras⟩) field

/-- Each field that is not known stands outside the sections of `auth`, and in
a mapping that is read: of two with one name the later one. -/
def NothingDropped (root : Node) : Prop :=
  ∀ place field, UnknownAt place root field →
    (∀ part, place ≠ .authSection part) ∧
      ∃ node, readAt place.path root = some node ∧ field ∈ node.fields

theorem mem_at_iff {root : Node} {extras : RequestExtras} (h : Held root extras) {place : Place}
    {field : Node × Node} (hfield : field.1.value ∉ place.known) :
    field ∈ extras.at place ↔ (∀ part, place ≠ .authSection part) ∧
      ∃ node, readAt place.path root = some node ∧ field ∈ node.fields := by
  by_cases hplace : ∀ part, place ≠ .authSection part
  · rw [h place hplace, unknownOf, List.mem_filter]
    cases readAt place.path root <;> simp [hfield, hplace]
  · refine iff_of_false ?_ fun hboth => hplace hboth.1
    push Not at hplace
    obtain ⟨part, rfl⟩ := hplace
    simp [RequestExtras.at]

theorem Held.stays_iff {out : Outside} {root : Node} {extras : RequestExtras}
    (h : Held root extras) : Survives out root extras ↔ NothingDropped root := by
  have hpresent : ∀ (b : NodeBuilder) (request : Request) (order : Int) {place : Place}
      {field : Node × Node}, field.1.value ∉ place.known →
      (PresentAt place (b.request out ⟨request, order, extras⟩) field ↔
        field ∈ extras.at place) := by
    intro b request order place field hfield
    have hheld : Held root (⟨request, order, extras⟩ : RequestDocument).extras := h
    exact presentAt_request hheld b hfield
  constructor
  · intro hsurvives place field hunknown
    have hwritten := hsurvives ⟨false⟩ {} 0 place field hunknown
    rw [hpresent _ _ _ hunknown.2] at hwritten
    exact (mem_at_iff h hunknown.2).1 hwritten
  · intro hdropped b request order place field hunknown
    rw [hpresent _ _ _ hunknown.2]
    exact (mem_at_iff h hunknown.2).2 (hdropped place field hunknown)

theorem held_of_readRequestFile {out : Outside} {root : Node} {document : RequestDocument}
    (h : readRequestFile out root = .ok document) : Held root document.extras := by
  unfold readRequestFile at h
  split_ifs at h
  exact held_of_readRequest h

/-- The fields of a request file that are not known survive a save exactly
where none stands in a section of `auth` or in a mapping that a later one of
the same name replaces. -/
theorem survives_iff_nothingDropped {out : Outside} {root : Node} {document : RequestDocument}
    (h : readRequestFile out root = .ok document) :
    Survives out root document.extras ↔ NothingDropped root :=
  (held_of_readRequestFile h).stays_iff

def plainOutside : Outside where
  shortTag
    | .scalar tag _ _ _ => tag
    | .mapping tag _ _ _ => tag
    | .sequence tag _ _ _ => tag
    | .aliasOf _ _ => ""
  decodeFlag node :=
    if node.value = "true" then some true else if node.value = "false" then some false else none
  decodeInteger node := node.value.toInt?
  decodeJson _ := none
  foldTag tag := tag.toLower
  quoted text := "\"" ++ text ++ "\""

theorem exists_of_isOk {ε α : Type} {computation : Except ε α} (h : computation.isOk = true) :
    ∃ value, computation = .ok value := by
  cases computation with
  | error e => cases h
  | ok value => exact ⟨value, rfl⟩

/-- A file with the field `note` at its top and in its options. -/
def annotated : Node :=
  mappingNode [(keyNode "url", keyNode "x"), (keyNode "note", keyNode "y"),
    (keyNode "options", mappingNode [(keyNode "note", keyNode "z")])]

theorem annotated_survives :
    ∃ document, readRequestFile plainOutside annotated = .ok document ∧
      Survives plainOutside annotated document.extras := by
  obtain ⟨document, hdocument⟩ :=
    exists_of_isOk (show (readRequestFile plainOutside annotated).isOk = true by decide +kernel)
  refine ⟨document, hdocument, (survives_iff_nothingDropped hdocument).2 ?_⟩
  rintro place field ⟨⟨node, hnode, hfield⟩, -⟩
  cases place with
  | top => exact ⟨by simp, annotated, rfl, List.mem_singleton.1 hnode ▸ hfield⟩
  | options => exact ⟨by simp, _, rfl, List.mem_singleton.1 hnode ▸ hfield⟩
  | auth => cases hnode
  | oauth2 => cases hnode
  | authSection part => cases hnode

/-- A file with the field `note` in the section for signing with AWS keys. -/
def annotatedSection : Node :=
  mappingNode [(keyNode "url", keyNode "x"),
    (keyNode "auth", mappingNode [(keyNode "aws", mappingNode [(keyNode "note", keyNode "y")])])]

theorem annotatedSection_not_survives :
    ∃ document, readRequestFile plainOutside annotatedSection = .ok document ∧
      ¬ Survives plainOutside annotatedSection document.extras := by
  obtain ⟨document, hdocument⟩ :=
    exists_of_isOk
      (show (readRequestFile plainOutside annotatedSection).isOk = true by decide +kernel)
  refine ⟨document, hdocument, ?_⟩
  rw [(held_of_readRequestFile hdocument).stays_iff]
  intro hdropped
  have hunknown : UnknownAt (.authSection .aws) annotatedSection (keyNode "note", keyNode "y") :=
    ⟨⟨_, List.mem_singleton_self _, List.mem_singleton_self _⟩, by decide⟩
  exact (hdropped _ _ hunknown).1 .aws rfl

end Gostman.Workspace
