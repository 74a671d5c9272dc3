import Stress.Library.Text
import Mathlib.Data.List.Induction
import Mathlib.Data.List.Nodup

/-!
# The files of the web interface

`AbnfFile` and the actions of `AbnfFilesController`
(`tools/webui/abnf_validator/app`) over the tables of files and access rules.

A parameter of a request is absent or a text.  The database compares an id with a
text as a number, and `toId` is that number.  What an action renders is left out,
and of the session only the message is kept.

The views disable the buttons for users without the permission `w`, and the actions
behind them do not look at it.  `only_writers_iff` says which requests let a user
without it change a file, over every run of requests.  `add_access_rule` never
grants anything, since its check of the permission is always true
(`shareFile_eq_error`).
-/

namespace Stress.Webui

/-- A row of `abnf_files`. -/
structure AbnfFile where
  id : Nat
  name : Bytes
  libraryId : Option Nat
  content : Option Bytes
  creator : Nat
deriving DecidableEq, Repr

/-- A row of `access_rules`. -/
structure AccessRule where
  userId : Nat
  abnfFileId : Nat
  permissions : Bytes
deriving DecidableEq, Repr

/-- The tables, with the ids of the libraries. -/
structure Db where
  files : List AbnfFile := []
  accessRules : List AccessRule := []
  libraries : List Nat := []
  /-- The id of the next file. -/
  nextId : Nat := 1
deriving DecidableEq, Repr

/-- What the models raise.  `standardError` is any other error: a method of `nil`, or
a record that is not there. -/
inductive Exceptions where
  | missingParameters
  | invalidLibraryId
  | notOwner
  | notSharer
  | fileNotFound
  | fileAlreadyShared
  | invalidPermission
  | standardError
deriving DecidableEq, Repr

/-! ## The tables -/

namespace Db

/-- `find` without the exception. -/
def find? (db : Db) (id : Nat) : Option AbnfFile := db.files.find? fun f => f.id = id

/-- `AbnfFile.find`. -/
def find (db : Db) (id : Nat) : Except Exceptions AbnfFile :=
  match db.find? id with
  | some f => .ok f
  | none => .error .standardError

/-- `update_attributes` of one file. -/
def updateAttributes (id : Nat) (g : AbnfFile → AbnfFile) (db : Db) : Db :=
  { db with files := db.files.map fun f => if f.id = id then g f else f }

/-- `save!` of a new file, and its rule for the creator. -/
def insert (name : Bytes) (libraryId : Option Nat) (content : Option Bytes) (userId : Nat)
    (db : Db) : Db :=
  { db with
    files := db.files ++ [⟨db.nextId, name, libraryId, content, userId⟩]
    accessRules := db.accessRules ++ [⟨userId, db.nextId, ascii "w"⟩]
    nextId := db.nextId + 1 }

/-- `AbnfFile.delete` and the end of its rules. -/
def delete (id : Nat) (db : Db) : Db :=
  { db with
    files := db.files.filter fun f => f.id ≠ id
    accessRules := db.accessRules.filter fun r => r.abnfFileId ≠ id }

/-- `AccessRule.delete` for the rules of a user on a file. -/
def unshare (userId fileId : Nat) (db : Db) : Db :=
  { db with
    accessRules := db.accessRules.filter fun r => ¬ (r.userId = userId ∧ r.abnfFileId = fileId) }

/-- `AccessRule.exists?` for a user and a file. -/
def hasRule (userId fileId : Nat) (db : Db) : Bool :=
  db.accessRules.any fun r => r.userId = userId && r.abnfFileId = fileId

end Db

/-- `size < 1` of a parameter, which raises for `nil`. -/
def sized (p : Option Bytes) : Except Exceptions Bytes :=
  match p with
  | none => .error .standardError
  | some s => if s.length < 1 then .error .missingParameters else .ok s

/-- `raise x unless c`. -/
def check (c : Prop) [Decidable c] (x : Exceptions) : Except Exceptions Unit :=
  if c then .ok () else .error x

section Operations

variable (toId : Bytes → Nat)

/-! ## `AbnfFile` -/

namespace AbnfFile

def createNewFile (fileName libraryId : Option Bytes) (userId : Nat) (db : Db) :
    Except Exceptions Db := do
  let name ← sized fileName
  check (∃ l ∈ libraryId, toId l ∈ db.libraries) .invalidLibraryId
  return db.insert name (libraryId.map toId) none userId

/-- The upload is the name of a file and its content. -/
def importFile (upload : Option (Bytes × Bytes)) (library : Option Bytes) (userId : Nat)
    (db : Db) : Except Exceptions Db :=
  match upload with
  | none => .error .standardError
  | some (name, content) => .ok (db.insert name (library.map toId) (some content) userId)

def deleteFile (fileId : Option Bytes) (userId : Nat) (db : Db) : Except Exceptions Db := do
  let id := toId (← sized fileId)
  let file ← db.find id
  check (file.creator = userId) .notOwner
  return db.delete id

def unshareFile (userId : Nat) (fileId : Option Bytes) (db : Db) : Except Exceptions Db := do
  let id := toId (← sized fileId)
  let file ← db.find id
  check (file.creator ≠ userId) .notSharer
  return db.unshare userId id

def renameFile (fileId fileName : Option Bytes) (db : Db) : Except Exceptions Db := do
  let id := toId (← sized fileId)
  let name ← sized fileName
  check ((db.find? id).isSome = true) .fileNotFound
  return db.updateAttributes id fun f => { f with name := name }

def shareFile (userId fileId permissions : Option Bytes) (db : Db) : Except Exceptions Db := do
  let user := toId (← sized userId)
  let id := toId (← sized fileId)
  let permissions ← sized permissions
  check (db.hasRule user id = false) .fileAlreadyShared
  check (¬ (permissions ≠ ascii "w" ∨ permissions ≠ ascii "r")) .invalidPermission
  return { db with accessRules := db.accessRules ++ [⟨user, id, permissions⟩] }

def copyFile (fileId newFileName libraryId : Option Bytes) (userId : Nat) (db : Db) :
    Except Exceptions Db := do
  let name ← sized newFileName
  let id := toId (← sized fileId)
  let library := toId (← sized libraryId)
  check ((db.find? id).isSome = true) .fileNotFound
  check (library ∈ db.libraries) .invalidLibraryId
  let file ← db.find id
  return db.insert name (some library) file.content userId

def moveFile (fileId libraryId : Option Bytes) (db : Db) : Except Exceptions Db := do
  let id := toId (← sized fileId)
  let library := toId (← sized libraryId)
  check ((db.find? id).isSome = true) .fileNotFound
  check (library ∈ db.libraries) .invalidLibraryId
  return db.updateAttributes id fun f => { f with libraryId := some library }

end AbnfFile

/-! ## `AbnfFilesController` -/

/-- The actions with the parameters they read. -/
inductive FileAction where
  | index (id : Option Bytes)
  | newFile
  | importFile
  | importNewFile (upload : Option (Bytes × Bytes)) (libraryId : Option Bytes)
  | createFile (fileName libraryId : Option Bytes)
  | deleteFile (id : Option Bytes)
  | unshareFile (id : Option Bytes)
  | modifyFileProperties (fileId : Option Bytes)
  | renameFile (fileId fileName : Option Bytes)
  | addAccessRule (user file permissions : Option Bytes)
  | copyFile (fileId newFileName library : Option Bytes)
  | moveFile (fileId library : Option Bytes)
  | modifyOrReloadContent (fileId editorTextarea : Option Bytes)
  | validate
  | export
deriving DecidableEq, Repr

/-- `session[:messages]`. -/
structure Message where
  type : String
  msg : String
deriving DecidableEq, Repr

/-- The `begin` block of an action: the message for its success, and those for the
exceptions it names. -/
def rescue (done : String) (texts : List (Exceptions × String)) (db : Db)
    (res : Except Exceptions Db) : Db × Option Message :=
  match res with
  | .ok db' => (db', some ⟨"ok", done⟩)
  | .error x =>
      (db, some ⟨"err", (texts.lookup x).getD "Generic error, please contact administrator"⟩)

/-- The checks of `modify_or_reload_content`, which stand in front of its `begin`
block. -/
def contentChecks (fileId : Option Bytes) (db : Db) : Except Exceptions Nat := do
  let id := toId (← sized fileId)
  check ((db.find? id).isSome = true) .fileNotFound
  return id

/-- `modify_or_reload_content`. -/
def modifyOrReloadContent (fileId editorTextarea : Option Bytes) (db : Db) :
    Db × Option Message :=
  match contentChecks toId fileId db with
  | .error _ => (db, none)
  | .ok id =>
      match editorTextarea with
      | some text =>
          (db.updateAttributes id fun f => { f with content := some text },
            some ⟨"ok", "File saved!"⟩)
      | none => (db, some ⟨"ok", "File reloaded!"⟩)

/-- What a request of a user does to the tables, with the message it leaves. -/
def perform (userId : Nat) (db : Db) : FileAction → Db × Option Message
  | .importNewFile upload libraryId =>
      match AbnfFile.importFile toId upload libraryId userId db with
      | .ok db' => (db', none)
      | .error _ => (db, none)
  | .createFile fileName libraryId =>
      rescue "New file created!"
        [(.missingParameters, "Missing file name!"), (.invalidLibraryId, "Library id not valid!")]
        db (AbnfFile.createNewFile toId fileName libraryId userId db)
  | .deleteFile id =>
      rescue "File deleted!"
        [(.missingParameters, "Missing file id"), (.notOwner, "Only owner can delete files!")]
        db (AbnfFile.deleteFile toId id userId db)
  | .unshareFile id =>
      rescue "File unshared!"
        [(.missingParameters, "Missing file id"),
         (.notSharer, "You cannot unshare an owned file!")]
        db (AbnfFile.unshareFile toId userId id db)
  | .renameFile fileId fileName =>
      rescue "File renamed!"
        [(.missingParameters, "Missing file name or id"), (.fileNotFound, "File not found")]
        db (AbnfFile.renameFile toId fileId fileName db)
  | .addAccessRule user file permissions =>
      rescue "File shared!"
        [(.missingParameters, "Missing some parameters"),
         (.fileAlreadyShared, "Selected user already share this file"),
         (.invalidPermission, "Invalid permission type")]
        db (AbnfFile.shareFile toId user file (some (permissions.getD (ascii "r"))) db)
  | .copyFile fileId newFileName library =>
      rescue "File copied!"
        [(.missingParameters, "Missing some parameters!"),
         (.invalidLibraryId, "Invalid library id!"), (.fileNotFound, "File not found!")]
        db (AbnfFile.copyFile toId fileId newFileName library userId db)
  | .moveFile fileId library =>
      rescue "File moved!"
        [(.missingParameters, "Missing some parameters!"),
         (.invalidLibraryId, "Invalid library id!"), (.fileNotFound, "File not found!")]
        db (AbnfFile.moveFile toId fileId library db)
  | .modifyOrReloadContent fileId editorTextarea =>
      modifyOrReloadContent toId fileId editorTextarea db
  | .index _ | .newFile | .importFile | .modifyFileProperties _ | .validate | .export => (db, none)

/-- A request: the user of the session, if anyone has logged in, and the action. -/
structure Request where
  sessionUser : Option Nat
  action : FileAction
deriving DecidableEq, Repr

/-- A request behind the filter `authorize`. -/
def step (db : Db) (r : Request) : Db :=
  match r.sessionUser with
  | none => db
  | some userId => (perform toId userId db r.action).1

/-- What happens to the tables: a request, or a change of the libraries by their own
controller. -/
inductive Event where
  | request (r : Request)
  | setLibraries (libraries : List Nat)
deriving DecidableEq, Repr

def Event.apply (db : Db) : Event → Db
  | .request r => step toId db r
  | .setLibraries libraries => { db with libraries := libraries }

/-- A sequence of events from the empty tables. -/
def run (es : List Event) : Db := es.foldl (Event.apply toId) {}

end Operations

/-! ## Equations -/

theorem bind_ok {α β : Type} {x : Except Exceptions α} {k : α → Except Exceptions β} {b : β} :
    (x >>= k) = .ok b ↔ ∃ a, x = .ok a ∧ k a = .ok b := by
  cases x with
  | error e => exact ⟨nofun, by rintro ⟨_, h, _⟩; cases h⟩
  | ok a => exact ⟨fun h => ⟨a, rfl, h⟩, by rintro ⟨_, h, hk⟩; cases h; exact hk⟩

theorem sized_ok {p : Option Bytes} {s : Bytes} : sized p = .ok s ↔ p = some s ∧ s ≠ [] := by
  unfold sized
  split
  · exact ⟨nofun, nofun⟩
  · next t =>
      cases t with
      | nil => exact ⟨nofun, by rintro ⟨h, hne⟩; cases h; exact absurd rfl hne⟩
      | cons c t => exact ⟨by intro h; cases h; exact ⟨rfl, nofun⟩, by rintro ⟨h, _⟩; cases h; rfl⟩

theorem check_ok {c : Prop} [Decidable c] {x : Exceptions} {u : Unit} :
    check c x = .ok u ↔ c := by
  unfold check
  split
  · next h => exact ⟨fun _ => h, fun _ => rfl⟩
  · next h => exact ⟨nofun, fun hc => absurd hc h⟩

theorem find_ok {db : Db} {id : Nat} {f : AbnfFile} :
    db.find id = .ok f ↔ db.find? id = some f := by
  unfold Db.find
  cases db.find? id with
  | none => exact ⟨nofun, nofun⟩
  | some g => exact ⟨fun h => by cases h; rfl, fun h => by cases h; rfl⟩

/-- A failed operation leaves the tables as they were. -/
theorem rescue_cases (done : String) (texts : List (Exceptions × String)) (db : Db)
    (res : Except Exceptions Db) :
    (rescue done texts db res).1 = db ∨ res = .ok (rescue done texts db res).1 := by
  cases res with
  | error x => exact .inl rfl
  | ok db' => exact .inr rfl

section Operations

variable {toId : Bytes → Nat}

/-- No permission passes the check of `share_file`, so nothing is ever shared. -/
theorem shareFile_eq_error (userId fileId permissions : Option Bytes) (db : Db) :
    ∃ x, AbnfFile.shareFile toId userId fileId permissions db = .error x := by
  cases h : AbnfFile.shareFile toId userId fileId permissions db with
  | error x => exact ⟨x, rfl⟩
  | ok db' =>
      simp only [AbnfFile.shareFile, bind_ok, check_ok] at h
      obtain ⟨_, _, _, _, p, _, _, _, _, hp, _⟩ := h
      rw [not_or, not_not, not_not] at hp
      have hne : ascii "w" ≠ ascii "r" := by decide
      exact absurd (hp.1.symm.trans hp.2) hne

/-! ## What an action does -/

/-- The file an action overwrites without asking for a permission, and how.  These are
renaming, moving and saving. -/
def overwrite (toId : Bytes → Nat) (db : Db) :
    FileAction → Option (Nat × (AbnfFile → AbnfFile))
  | .renameFile (some i) (some n) =>
      if i ≠ [] ∧ n ≠ [] then some (toId i, fun f => { f with name := n }) else none
  | .moveFile (some i) (some l) =>
      if i ≠ [] ∧ l ≠ [] ∧ toId l ∈ db.libraries then
        some (toId i, fun f => { f with libraryId := some (toId l) })
      else none
  | .modifyOrReloadContent (some i) (some t) =>
      if i ≠ [] then some (toId i, fun f => { f with content := some t }) else none
  | _ => none

theorem renameFile_ok {i n : Option Bytes} {db db' : Db} :
    AbnfFile.renameFile toId i n db = .ok db' ↔ ∃ i' n', (i = some i' ∧ i' ≠ []) ∧
      (n = some n' ∧ n' ≠ []) ∧ (db.find? (toId i')).isSome = true ∧
      db' = db.updateAttributes (toId i') fun f => { f with name := n' } := by
  simp only [AbnfFile.renameFile, bind_ok, sized_ok, check_ok, exists_const]
  constructor
  · rintro ⟨i', hi, n', hn, hf, h⟩
    cases h
    exact ⟨i', n', hi, hn, hf, rfl⟩
  · rintro ⟨i', n', hi, hn, hf, rfl⟩
    exact ⟨i', hi, n', hn, hf, rfl⟩

theorem moveFile_ok {i l : Option Bytes} {db db' : Db} :
    AbnfFile.moveFile toId i l db = .ok db' ↔ ∃ i' l', (i = some i' ∧ i' ≠ []) ∧
      (l = some l' ∧ l' ≠ []) ∧ (db.find? (toId i')).isSome = true ∧ toId l' ∈ db.libraries ∧
      db' = db.updateAttributes (toId i') fun f => { f with libraryId := some (toId l') } := by
  simp only [AbnfFile.moveFile, bind_ok, sized_ok, check_ok, exists_const]
  constructor
  · rintro ⟨i', hi, l', hl, hf, hlib, h⟩
    cases h
    exact ⟨i', l', hi, hl, hf, hlib, rfl⟩
  · rintro ⟨i', l', hi, hl, hf, hlib, rfl⟩
    exact ⟨i', hi, l', hl, hf, hlib, rfl⟩

theorem deleteFile_ok {i : Option Bytes} {userId : Nat} {db db' : Db} :
    AbnfFile.deleteFile toId i userId db = .ok db' ↔ ∃ i' f, (i = some i' ∧ i' ≠ []) ∧
      db.find? (toId i') = some f ∧ f.creator = userId ∧
      db' = db.delete (toId i') := by
  simp only [AbnfFile.deleteFile, bind_ok, sized_ok, check_ok, find_ok, exists_const]
  constructor
  · rintro ⟨i', hi, f, hf, hc, h⟩
    cases h
    exact ⟨i', f, hi, hf, hc, rfl⟩
  · rintro ⟨i', f, hi, hf, hc, rfl⟩
    exact ⟨i', hi, f, hf, hc, rfl⟩

theorem unshareFile_ok {i : Option Bytes} {userId : Nat} {db db' : Db} :
    AbnfFile.unshareFile toId userId i db = .ok db' ↔ ∃ i' f, (i = some i' ∧ i' ≠ []) ∧
      db.find? (toId i') = some f ∧ f.creator ≠ userId ∧
      db' = db.unshare userId (toId i') := by
  simp only [AbnfFile.unshareFile, bind_ok, sized_ok, check_ok, find_ok, exists_const]
  constructor
  · rintro ⟨i', hi, f, hf, hc, h⟩
    cases h
    exact ⟨i', f, hi, hf, hc, rfl⟩
  · rintro ⟨i', f, hi, hf, hc, rfl⟩
    exact ⟨i', hi, f, hf, hc, rfl⟩

theorem createNewFile_ok {n l : Option Bytes} {userId : Nat} {db db' : Db}
    (h : AbnfFile.createNewFile toId n l userId db = .ok db') :
    ∃ name library content, db' = db.insert name library content userId := by
  simp only [AbnfFile.createNewFile, bind_ok] at h
  obtain ⟨name, _, _, _, h⟩ := h
  cases h
  exact ⟨name, _, _, rfl⟩

theorem copyFile_ok {i n l : Option Bytes} {userId : Nat} {db db' : Db}
    (h : AbnfFile.copyFile toId i n l userId db = .ok db') :
    ∃ name library content, db' = db.insert name library content userId := by
  simp only [AbnfFile.copyFile, bind_ok] at h
  obtain ⟨name, _, _, _, _, _, _, _, _, _, _, _, h⟩ := h
  cases h
  exact ⟨name, _, _, rfl⟩

theorem contentChecks_ok {i : Option Bytes} {db : Db} {id : Nat} :
    contentChecks toId i db = .ok id ↔ ∃ i', (i = some i' ∧ i' ≠ []) ∧
      (db.find? (toId i')).isSome = true ∧ id = toId i' := by
  simp only [contentChecks, bind_ok, sized_ok, check_ok, exists_const]
  constructor
  · rintro ⟨i', hi, hf, h⟩
    cases h
    exact ⟨i', hi, hf, rfl⟩
  · rintro ⟨i', hi, hf, rfl⟩
    exact ⟨i', hi, hf, rfl⟩

/-- A file that is not there is not overwritten. -/
theorem updateAttributes_of_none {db : Db} {id : Nat} (h : db.find? id = none)
    (g : AbnfFile → AbnfFile) : db.updateAttributes id g = db := by
  have hfiles : (db.files.map fun f => if f.id = id then g f else f) = db.files := by
    rw [Db.find?, List.find?_eq_none] at h
    refine (List.map_congr_left fun f hf => ?_).trans (List.map_id' _)
    have hne := h f hf
    rw [decide_eq_true_iff] at hne
    exact if_neg hne
  rw [Db.updateAttributes, hfiles]

theorem rescue_update {done : String} {texts : List (Exceptions × String)} {db : Db} {id : Nat}
    {g : AbnfFile → AbnfFile} {res : Except Exceptions Db}
    (h : (db.find? id).isSome = true → res = .ok (db.updateAttributes id g))
    (h' : ∀ db', res = .ok db' → (db.find? id).isSome = true) :
    (rescue done texts db res).1 = db.updateAttributes id g := by
  cases hf : db.find? id with
  | some f =>
      rw [h (by rw [hf]; rfl)]
      rfl
  | none =>
      rw [updateAttributes_of_none hf]
      obtain heq | hok := rescue_cases done texts db res
      · exact heq
      · have hsome := h' _ hok
        rw [hf] at hsome
        cases hsome

theorem perform_overwrite {db : Db} {a : FileAction} {id : Nat} {g : AbnfFile → AbnfFile}
    (h : overwrite toId db a = some (id, g)) (userId : Nat) :
    (perform toId userId db a).1 = db.updateAttributes id g := by
  unfold overwrite at h
  split at h
  · next i n =>
      split at h
      · next hne =>
          cases h
          refine rescue_update
            (fun hf => renameFile_ok.mpr ⟨i, n, ⟨rfl, hne.1⟩, ⟨rfl, hne.2⟩, hf, rfl⟩) ?_
          intro db' hok
          obtain ⟨i', n', ⟨hi, _⟩, _, hf, _⟩ := renameFile_ok.mp hok
          cases hi
          exact hf
      · cases h
  · next i l =>
      split at h
      · next hne =>
          cases h
          refine rescue_update
            (fun hf => moveFile_ok.mpr ⟨i, l, ⟨rfl, hne.1⟩, ⟨rfl, hne.2.1⟩, hf, hne.2.2, rfl⟩) ?_
          intro db' hok
          obtain ⟨i', l', ⟨hi, _⟩, _, hf, _⟩ := moveFile_ok.mp hok
          cases hi
          exact hf
      · cases h
  · next i t =>
      split at h
      · next hne =>
          cases h
          rw [perform, modifyOrReloadContent]
          cases hc : contentChecks toId (some i) db with
          | ok id =>
              obtain ⟨i', ⟨hi, _⟩, _, rfl⟩ := contentChecks_ok.mp hc
              cases hi
              rfl
          | error x =>
              refine (updateAttributes_of_none ?_ _).symm
              cases hf : db.find? (toId i) with
              | none => rfl
              | some f =>
                  rw [contentChecks_ok.mpr ⟨i, ⟨rfl, hne⟩, by rw [hf]; rfl, rfl⟩] at hc
                  cases hc
      · cases h
  · cases h

/-- An action that overwrites no file does nothing, adds a file, deletes a file of its
creator, or takes a rule away from the user himself. -/
theorem perform_other {db : Db} {a : FileAction} (h : overwrite toId db a = none)
    (userId : Nat) :
    (perform toId userId db a).1 = db ∨
    (∃ name library content,
      (perform toId userId db a).1 = db.insert name library content userId) ∨
    (∃ id f, db.find? id = some f ∧ f.creator = userId ∧
      (perform toId userId db a).1 = db.delete id) ∨
    ∃ p id f, a = .unshareFile p ∧ db.find? id = some f ∧ f.creator ≠ userId ∧
      (perform toId userId db a).1 = db.unshare userId id := by
  cases a with
  | index _ => exact .inl rfl
  | newFile => exact .inl rfl
  | importFile => exact .inl rfl
  | modifyFileProperties _ => exact .inl rfl
  | validate => exact .inl rfl
  | «export» => exact .inl rfl
  | importNewFile upload libraryId =>
      cases upload with
      | none => exact .inl rfl
      | some u => exact .inr (.inl ⟨u.1, libraryId.map toId, some u.2, rfl⟩)
  | createFile n l =>
      rw [perform]
      exact (rescue_cases _ _ _ _).imp_right fun hok => .inl (createNewFile_ok hok)
  | copyFile i n l =>
      rw [perform]
      exact (rescue_cases _ _ _ _).imp_right fun hok => .inl (copyFile_ok hok)
  | deleteFile i =>
      rw [perform]
      refine (rescue_cases _ _ _ _).imp_right fun hok => .inr (.inl ?_)
      obtain ⟨i', f, _, hf, hc, heq⟩ := deleteFile_ok.mp hok
      exact ⟨toId i', f, hf, hc, heq⟩
  | unshareFile i =>
      rw [perform]
      refine (rescue_cases _ _ _ _).imp_right fun hok => .inr (.inr ?_)
      obtain ⟨i', f, _, hf, hc, heq⟩ := unshareFile_ok.mp hok
      exact ⟨i, toId i', f, rfl, hf, hc, heq⟩
  | addAccessRule user file permissions =>
      obtain ⟨x, hx⟩ : ∃ x, AbnfFile.shareFile toId user file
          (some (permissions.getD (ascii "r"))) db = .error x :=
        shareFile_eq_error user file _ db
      rw [perform, hx]
      exact .inl rfl
  | renameFile i n =>
      rw [perform]
      refine (rescue_cases _ _ _ _).imp_right fun hok => ?_
      obtain ⟨i', n', ⟨rfl, hi⟩, ⟨rfl, hn⟩, _⟩ := renameFile_ok.mp hok
      rw [overwrite, if_pos ⟨hi, hn⟩] at h
      cases h
  | moveFile i l =>
      rw [perform]
      refine (rescue_cases _ _ _ _).imp_right fun hok => ?_
      obtain ⟨i', l', ⟨rfl, hi⟩, ⟨rfl, hl⟩, _, hlib, _⟩ := moveFile_ok.mp hok
      rw [overwrite, if_pos ⟨hi, hl, hlib⟩] at h
      cases h
  | modifyOrReloadContent i t =>
      rw [perform, modifyOrReloadContent]
      cases hc : contentChecks toId i db with
      | error x => exact .inl rfl
      | ok id =>
          cases t with
          | none => exact .inl rfl
          | some t =>
              obtain ⟨i', ⟨rfl, hi⟩, _⟩ := contentChecks_ok.mp hc
              rw [overwrite, if_pos hi] at h
              cases h

/-! ## Who may change a file -/

/-- What only writers may change: the fields of a file and its rules. -/
structure FileView where
  name : Bytes
  libraryId : Option Nat
  content : Option Bytes
  accessRules : List AccessRule
deriving DecidableEq, Repr

def Db.view (db : Db) (id : Nat) : Option FileView :=
  (db.find? id).map fun f =>
    ⟨f.name, f.libraryId, f.content, db.accessRules.filter fun r => r.abnfFileId = id⟩

/-- The user holds a rule with the permission `w` on the file. -/
def IsWriter (db : Db) (userId fileId : Nat) : Prop :=
  ⟨userId, fileId, ascii "w"⟩ ∈ db.accessRules

instance (db : Db) (userId fileId : Nat) : Decidable (IsWriter db userId fileId) :=
  inferInstanceAs (Decidable (_ ∈ _))

/-- A user takes away his own rule on a file. -/
def UnsharesOwn (db db' : Db) (userId fileId : Nat) (a : FileAction) : Prop :=
  (∃ p, a = .unshareFile p) ∧ db' = db.unshare userId fileId

/-- A request changes no file but those that its user may write to. -/
def OnlyWriters (toId : Bytes → Nat) (db : Db) (r : Request) : Prop :=
  ∀ id, (db.find? id).isSome = true → (step toId db r).view id ≠ db.view id →
    ∃ u, r.sessionUser = some u ∧
      (IsWriter db u id ∨ UnsharesOwn db (step toId db r) u id r.action)

/-- A request to rename, to move or to save a file comes from a writer, or it writes
what is there already. -/
def Permitted (toId : Bytes → Nat) (db : Db) (r : Request) : Prop :=
  ∀ u, r.sessionUser = some u → ∀ id g, overwrite toId db r.action = some (id, g) →
    ∀ f, db.find? id = some f → g f = f ∨ IsWriter db u id

/-- What holds of the tables in every run. -/
structure Db.Valid (db : Db) : Prop where
  nodup : (db.files.map AbnfFile.id).Nodup
  files_lt : ∀ f ∈ db.files, f.id < db.nextId
  rules_lt : ∀ r ∈ db.accessRules, r.abnfFileId < db.nextId
  creator_writes : ∀ f ∈ db.files, IsWriter db f.creator f.id

theorem overwrite_keeps {db : Db} {a : FileAction} {id : Nat} {g : AbnfFile → AbnfFile}
    (h : overwrite toId db a = some (id, g)) (f : AbnfFile) :
    (g f).id = f.id ∧ (g f).creator = f.creator := by
  unfold overwrite at h
  split at h
  · split at h <;> cases h
    exact ⟨rfl, rfl⟩
  · split at h <;> cases h
    exact ⟨rfl, rfl⟩
  · split at h <;> cases h
    exact ⟨rfl, rfl⟩
  · cases h

namespace Db

variable {db : Db} {id n : Nat} {g : AbnfFile → AbnfFile} {f : AbnfFile}

theorem mem_of_find? (h : db.find? id = some f) : f ∈ db.files ∧ f.id = id :=
  ⟨List.mem_of_find?_eq_some h, by simpa using List.find?_some h⟩

theorem eq_of_id (hv : db.Valid) {f' : AbnfFile} (hf : f ∈ db.files) (hf' : f' ∈ db.files)
    (h : f.id = f'.id) : f = f' :=
  List.inj_on_of_nodup_map hv.nodup hf hf' h

theorem find?_updateAttributes (hg : ∀ f, (g f).id = f.id) :
    (db.updateAttributes id g).find? n =
      (db.find? n).map fun f => if f.id = id then g f else f := by
  rw [find?, updateAttributes, List.find?_map, find?]
  congr 2
  funext f
  simp only [Function.comp_apply]
  split
  · rw [hg]
  · rfl

theorem view_updateAttributes_of_ne (hg : ∀ f, (g f).id = f.id) (hne : n ≠ id) :
    (db.updateAttributes id g).view n = db.view n := by
  rw [view, view, find?_updateAttributes hg, Option.map_map]
  cases hf : db.find? n with
  | none => rfl
  | some f =>
      have hid : f.id ≠ id := (mem_of_find? hf).2.trans_ne hne
      simp only [Option.map_some, Function.comp_apply, if_neg hid]
      rfl

/-- The view of an overwritten file is another one unless nothing was changed. -/
theorem view_updateAttributes_iff (hg : ∀ f, (g f).id = f.id ∧ (g f).creator = f.creator)
    (hf : db.find? id = some f) :
    (db.updateAttributes id g).view id = db.view id ↔ g f = f := by
  have hid : f.id = id := (mem_of_find? hf).2
  rw [view, view, find?_updateAttributes fun f => (hg f).1, hf]
  simp only [Option.map_some, if_pos hid, Option.some.injEq, FileView.mk.injEq]
  constructor
  · rintro ⟨hname, hlibrary, hcontent, _⟩
    cases hgf : g f
    have hkeep := hg f
    rw [hgf] at hname hlibrary hcontent hkeep
    cases f
    simp only at hname hlibrary hcontent hkeep
    rw [hname, hlibrary, hcontent, hkeep.1, hkeep.2]
  · intro heq
    rw [heq]
    exact ⟨rfl, rfl, rfl, rfl⟩

theorem view_insert (hv : db.Valid) (h : (db.find? n).isSome = true) (name : Bytes)
    (libraryId : Option Nat) (content : Option Bytes) (userId : Nat) :
    (db.insert name libraryId content userId).view n = db.view n := by
  obtain ⟨f, hf⟩ := Option.isSome_iff_exists.mp h
  have hlt : n < db.nextId := (mem_of_find? hf).2 ▸ hv.files_lt f (mem_of_find? hf).1
  have hfind : (db.insert name libraryId content userId).find? n = db.find? n := by
    rw [find?, insert, List.find?_append, ← find?, hf]
    rfl
  have hrules : (db.insert name libraryId content userId).accessRules.filter
      (fun r => r.abnfFileId = n) = db.accessRules.filter fun r => r.abnfFileId = n := by
    have hne : ¬ db.nextId = n := by omega
    rw [insert, List.filter_append, List.filter_singleton, decide_eq_false hne]
    exact List.append_nil _
  rw [view, view, hfind, hrules]

theorem view_delete (hne : n ≠ id) : (db.delete id).view n = db.view n := by
  have hfind : (db.delete id).find? n = db.find? n := by
    rw [find?, delete, List.find?_filter, find?]
    congr 1
    funext f
    by_cases hf : f.id = n
    · simp [hf, hne]
    · simp [hf]
  have hrules : (db.delete id).accessRules.filter (fun r => r.abnfFileId = n) =
      db.accessRules.filter fun r => r.abnfFileId = n := by
    rw [delete, List.filter_filter]
    congr 1
    funext r
    by_cases hr : r.abnfFileId = n
    · simp [hr, hne]
    · simp [hr]
  rw [view, view, hfind, hrules]

theorem view_unshare {userId : Nat} (hne : n ≠ id) :
    (db.unshare userId id).view n = db.view n := by
  have hrules : (db.unshare userId id).accessRules.filter (fun r => r.abnfFileId = n) =
      db.accessRules.filter fun r => r.abnfFileId = n := by
    rw [unshare, List.filter_filter]
    congr 1
    funext r
    by_cases hr : r.abnfFileId = n
    · simp [hr, hne]
    · simp [hr]
  rw [view, view, hrules]
  rfl

/-! ## Every run keeps the tables valid -/

theorem Valid.updateAttributes (hv : db.Valid)
    (hg : ∀ f, (g f).id = f.id ∧ (g f).creator = f.creator) :
    (db.updateAttributes id g).Valid := by
  have hkeep : ∀ f : AbnfFile, (if f.id = id then g f else f).id = f.id ∧
      (if f.id = id then g f else f).creator = f.creator := by
    intro f
    split
    · exact hg f
    · exact ⟨rfl, rfl⟩
  refine ⟨?_, ?_, hv.rules_lt, ?_⟩
  · rw [Db.updateAttributes, List.map_map]
    have hids : (AbnfFile.id ∘ fun f => if f.id = id then g f else f) = AbnfFile.id :=
      funext fun f => (hkeep f).1
    rw [hids]
    exact hv.nodup
  · intro f hf
    obtain ⟨f₀, hf₀, rfl⟩ := List.mem_map.mp hf
    rw [(hkeep f₀).1]
    exact hv.files_lt f₀ hf₀
  · intro f hf
    obtain ⟨f₀, hf₀, rfl⟩ := List.mem_map.mp hf
    rw [(hkeep f₀).1, (hkeep f₀).2]
    exact hv.creator_writes f₀ hf₀

theorem Valid.insert (hv : db.Valid) (name : Bytes) (libraryId : Option Nat)
    (content : Option Bytes) (userId : Nat) :
    (db.insert name libraryId content userId).Valid := by
  refine ⟨?_, ?_, ?_, ?_⟩
  · rw [Db.insert, List.map_append, List.nodup_append]
    refine ⟨hv.nodup, List.nodup_singleton db.nextId, ?_⟩
    intro i hi j hj heq
    obtain ⟨f, hf, rfl⟩ := List.mem_map.mp hi
    have hj' : j = db.nextId := List.mem_singleton.mp hj
    have hlt := hv.files_lt f hf
    omega
  · intro f hf
    have hnext : (db.insert name libraryId content userId).nextId = db.nextId + 1 := rfl
    rw [hnext]
    cases List.mem_append.mp hf with
    | inl hold => exact Nat.lt_succ_of_lt (hv.files_lt f hold)
    | inr hnew =>
        rw [List.mem_singleton.mp hnew]
        exact Nat.lt_succ_self _
  · intro r hr
    have hnext : (db.insert name libraryId content userId).nextId = db.nextId + 1 := rfl
    rw [hnext]
    cases List.mem_append.mp hr with
    | inl hold => exact Nat.lt_succ_of_lt (hv.rules_lt r hold)
    | inr hnew =>
        rw [List.mem_singleton.mp hnew]
        exact Nat.lt_succ_self _
  · intro f hf
    cases List.mem_append.mp hf with
    | inl hold => exact List.mem_append_left _ (hv.creator_writes f hold)
    | inr hnew =>
        rw [List.mem_singleton.mp hnew]
        exact List.mem_append_right _ (List.mem_singleton_self _)

theorem Valid.delete (hv : db.Valid) : (db.delete id).Valid := by
  refine ⟨?_, ?_, ?_, ?_⟩
  · exact hv.nodup.sublist (List.filter_sublist.map _)
  · exact fun f hf => hv.files_lt f (List.mem_of_mem_filter hf)
  · exact fun r hr => hv.rules_lt r (List.mem_of_mem_filter hr)
  · intro f hf
    obtain ⟨hmem, hne⟩ := List.mem_filter.mp hf
    exact List.mem_filter.mpr ⟨hv.creator_writes f hmem, hne⟩

theorem Valid.unshare {userId : Nat} (hv : db.Valid) (hf : db.find? id = some f)
    (hne : f.creator ≠ userId) : (db.unshare userId id).Valid := by
  refine ⟨hv.nodup, hv.files_lt, ?_, ?_⟩
  · exact fun r hr => hv.rules_lt r (List.mem_of_mem_filter hr)
  · intro f' hf'
    refine List.mem_filter.mpr ⟨hv.creator_writes f' hf', decide_eq_true ?_⟩
    rintro ⟨hcreator, hid⟩
    obtain ⟨hmem, hfid⟩ := mem_of_find? hf
    have heq : f = f' := eq_of_id hv hmem hf' (hfid.trans hid.symm)
    rw [heq] at hne
    exact hne hcreator

end Db

/-! ## Requests -/

theorem valid_step {db : Db} (hv : db.Valid) (r : Request) : (step toId db r).Valid := by
  unfold step
  cases r.sessionUser with
  | none => exact hv
  | some u =>
      simp only
      cases h : overwrite toId db r.action with
      | some p =>
          obtain ⟨id, g⟩ := p
          rw [perform_overwrite h u]
          exact hv.updateAttributes (overwrite_keeps h)
      | none =>
          obtain heq | ⟨_, _, _, heq⟩ | ⟨id, f, _, _, heq⟩ | ⟨_, id, f, _, hf, hne, heq⟩ :=
            perform_other h u
          · rw [heq]
            exact hv
          · rw [heq]
            exact hv.insert _ _ _ _
          · rw [heq]
            exact hv.delete
          · rw [heq]
            exact hv.unshare hf hne

theorem valid_run (es : List Event) : (run toId es).Valid := by
  induction es using List.reverseRecOn with
  | nil => exact ⟨.nil, nofun, nofun, nofun⟩
  | append_singleton es e ih =>
      rw [run, List.foldl_append, List.foldl_cons, List.foldl_nil, ← run]
      cases e with
      | request r => exact valid_step ih r
      | setLibraries libraries =>
          exact ⟨ih.nodup, ih.files_lt, ih.rules_lt, ih.creator_writes⟩

/-- One request changes files of writers only if and only if it is permitted. -/
theorem only_writers_step_iff {db : Db} (hv : db.Valid) (r : Request) :
    OnlyWriters toId db r ↔ Permitted toId db r := by
  cases hu : r.sessionUser with
  | none =>
      have hstep : step toId db r = db := by rw [step, hu]
      refine ⟨fun _ u hr => ?_, fun _ id _ hne => ?_⟩
      · rw [hu] at hr
        cases hr
      · rw [hstep] at hne
        exact absurd rfl hne
  | some u =>
      have hstep : step toId db r = (perform toId u db r.action).1 := by rw [step, hu]
      cases h : overwrite toId db r.action with
      | some p =>
          obtain ⟨id, g⟩ := p
          have hg := overwrite_keeps h
          rw [perform_overwrite h u] at hstep
          constructor
          · intro honly u' hu' id' g' h' f hf
            rw [hu] at hu'
            rw [h] at h'
            cases hu'
            cases h'
            refine or_iff_not_imp_left.mpr fun hne => ?_
            obtain ⟨u', hu', hw⟩ := honly id (by rw [hf]; rfl) (by
              rw [hstep]
              exact fun heq => hne ((Db.view_updateAttributes_iff hg hf).mp heq))
            rw [hu] at hu'
            cases hu'
            refine hw.resolve_right ?_
            rintro ⟨⟨q, hq⟩, _⟩
            rw [hq] at h
            cases h
          · intro hperm n hn hne
            rw [hstep] at hne
            by_cases hid : n = id
            · subst hid
              obtain ⟨f, hf⟩ := Option.isSome_iff_exists.mp hn
              refine ⟨u, hu, .inl ((hperm u hu n g h f hf).resolve_left fun heq => ?_)⟩
              exact hne ((Db.view_updateAttributes_iff hg hf).mpr heq)
            · exact absurd (Db.view_updateAttributes_of_ne (fun f => (hg f).1) hid) hne
      | none =>
          refine ⟨fun _ u' _ id g h' => ?_, fun _ n hn hne => ⟨u, hu, ?_⟩⟩
          · rw [h] at h'
            cases h'
          · rw [hstep] at hne
            obtain heq | ⟨_, _, _, heq⟩ | ⟨id, f, hf, hc, heq⟩ | ⟨p, id, f, hp, _, _, heq⟩ :=
              perform_other h u
            · rw [heq] at hne
              exact absurd rfl hne
            · rw [heq] at hne
              exact absurd (Db.view_insert hv hn _ _ _ _) hne
            · rw [heq] at hne
              by_cases hid : n = id
              · obtain ⟨hmem, hfid⟩ := Db.mem_of_find? hf
                have hw := hv.creator_writes f hmem
                rw [hc, hfid] at hw
                exact .inl (hid ▸ hw)
              · exact absurd (Db.view_delete hid) hne
            · rw [heq] at hne
              by_cases hid : n = id
              · exact .inr ⟨⟨p, hp⟩, by rw [hstep, heq, hid]⟩
              · exact absurd (Db.view_unshare hid) hne

/-- In a run of requests only writers change files if and only if every request to
rename, to move or to save a file comes from a writer of it, or writes what is there
already. -/
theorem only_writers_iff (toId : Bytes → Nat) (es : List Event) :
    (∀ p r, p ++ [.request r] <+: es → OnlyWriters toId (run toId p) r) ↔
      ∀ p r, p ++ [.request r] <+: es → Permitted toId (run toId p) r :=
  forall₃_congr fun p r _ => only_writers_step_iff (valid_run p) r

/-- User 1 uploads the file 1, and user 2 renames it. -/
theorem stranger_renames :
    ¬ ∀ (toId : Bytes → Nat) (es p : List Event) (r : Request), p ++ [.request r] <+: es →
      OnlyWriters toId (run toId p) r := by
  intro hall
  let upload : Event := .request ⟨some 1, .importNewFile (some (ascii "a.bnf", ascii "a")) none⟩
  let rename : Request := ⟨some 2, .renameFile (some (ascii "1")) (some (ascii "b.bnf"))⟩
  have honly := (only_writers_step_iff (valid_run [upload]) rename).mp
    (hall readNat [upload, .request rename] [upload] rename (List.prefix_refl _))
  have hone := honly 2 rfl 1 _ rfl _ rfl
  revert hone
  decide

end Operations

end Stress.Webui
