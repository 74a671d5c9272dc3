import Stress.AbnfFiles
import Mathlib.Data.Set.Insert
import Mathlib.Logic.Function.Basic

/-!
# The rules of access

The methods of `AbnfFile` (`tools/webui/abnf_validator/app/models/abnf_file.rb`) against
what the table of access rules is for: a set of users with a permission on a file.

In the abstract model a file is known by its creator, and the rules are a set.  An
operation adds a file with the rule of its creator, shares a file, takes the rule of a
sharing user away, or deletes a file with its rules.  `Call.op` says which operation a
call is, if any.

The files follow the model in every run (`filesOf_apply`).  The rules follow it in every
step but a share that the model allows, since `share_file` raises for every permission
(`rules_ne_of_shares`).
-/

namespace Stress.Webui

/-! ## The model -/

/-- The files by their creators, with the id of the next one. -/
structure Files where
  creator : Nat → Option Nat
  next : Nat
  libraries : List Nat

namespace Files

def add (files : Files) (userId : Nat) : Files :=
  { files with
    creator := Function.update files.creator files.next (some userId)
    next := files.next + 1 }

def remove (files : Files) (fileId : Nat) : Files :=
  { files with creator := Function.update files.creator fileId none }

end Files

/-- What a call is meant to do to files and rules. -/
inductive Op where
  | add (userId : Nat)
  | share (userId fileId : Nat) (permissions : Bytes)
  | unshare (userId fileId : Nat)
  | delete (fileId userId : Nat)
  | setLibraries (libraries : List Nat)
  | skip

namespace Op

def files (fs : Files) : Op → Files
  | add userId => fs.add userId
  | delete fileId userId => if fs.creator fileId = some userId then fs.remove fileId else fs
  | setLibraries libraries => { fs with libraries := libraries }
  | share .. | unshare .. | skip => fs

def rules (fs : Files) (rs : Set AccessRule) : Op → Set AccessRule
  | add userId => insert ⟨userId, fs.next, ascii "w"⟩ rs
  | share userId fileId permissions =>
      { r | r ∈ rs ∨ r = ⟨userId, fileId, permissions⟩ ∧
        (permissions = ascii "r" ∨ permissions = ascii "w") ∧ fs.creator fileId ≠ none ∧
        ∀ p, ⟨userId, fileId, p⟩ ∉ rs }
  | unshare userId fileId =>
      { r | r ∈ rs ∧ ¬ (r.userId = userId ∧ r.abnfFileId = fileId ∧
        fs.creator fileId ≠ none ∧ fs.creator fileId ≠ some userId) }
  | delete fileId userId =>
      { r | r ∈ rs ∧ ¬ (r.abnfFileId = fileId ∧ fs.creator fileId = some userId) }
  | setLibraries _ | skip => rs

end Op

/-! ## The calls -/

/-- A text that passes a check of presence. -/
abbrev Arg := { s : Bytes // s ≠ [] }

/-- A call of a method of `AbnfFile`, or a change of the libraries by their controller. -/
inductive Call where
  | createNewFile (fileName : Arg) (libraryId : Option Bytes) (userId : Nat)
  | importFile (name content : Bytes) (library : Option Bytes) (userId : Nat)
  | copyFile (fileId newFileName libraryId : Arg) (userId : Nat)
  | shareFile (userId fileId permissions : Arg)
  | unshareFile (userId : Nat) (fileId : Arg)
  | renameFile (fileId fileName : Arg)
  | moveFile (fileId libraryId : Arg)
  | deleteFile (fileId : Arg) (userId : Nat)
  | setLibraries (libraries : List Nat)

namespace Db

/-- The creator of a file, if it exists. -/
def creatorOf (db : Db) (id : Nat) : Option Nat := (db.find? id).map AbnfFile.creator

def filesOf (db : Db) : Files := ⟨db.creatorOf, db.nextId, db.libraries⟩

def rulesOf (db : Db) : Set AccessRule := { r | r ∈ db.accessRules }

end Db

section Calls

variable (toId : Bytes → Nat)

namespace Call

/-- The result of a call. -/
def result (db : Db) : Call → Except Exceptions Db
  | createNewFile fileName libraryId userId =>
      AbnfFile.createNewFile toId (some fileName) libraryId userId db
  | importFile name content library userId =>
      AbnfFile.importFile toId (some (name, content)) library userId db
  | copyFile fileId newFileName libraryId userId =>
      AbnfFile.copyFile toId (some fileId) (some newFileName) (some libraryId) userId db
  | shareFile userId fileId permissions =>
      AbnfFile.shareFile toId (some userId) (some fileId) (some permissions) db
  | unshareFile userId fileId => AbnfFile.unshareFile toId userId (some fileId) db
  | renameFile fileId fileName => AbnfFile.renameFile toId (some fileId) (some fileName) db
  | moveFile fileId libraryId => AbnfFile.moveFile toId (some fileId) (some libraryId) db
  | deleteFile fileId userId => AbnfFile.deleteFile toId (some fileId) userId db
  | setLibraries libraries => .ok { db with libraries := libraries }

/-- The tables behind a call.  A call that raises leaves them as they were. -/
def apply (db : Db) (c : Call) : Db :=
  match c.result toId db with
  | .ok db' => db'
  | .error _ => db

/-- What a call is meant to do: nothing without its library or the file it copies. -/
def op (fs : Files) : Call → Op
  | createNewFile _ libraryId userId =>
      if ∃ l ∈ libraryId, toId l ∈ fs.libraries then .add userId else .skip
  | importFile _ _ _ userId => .add userId
  | copyFile fileId _ libraryId userId =>
      if (fs.creator (toId fileId)).isSome = true ∧ toId libraryId ∈ fs.libraries then .add userId
      else .skip
  | shareFile userId fileId permissions => .share (toId userId) (toId fileId) permissions
  | unshareFile userId fileId => .unshare userId (toId fileId)
  | renameFile .. | moveFile .. => .skip
  | deleteFile fileId userId => .delete (toId fileId) userId
  | setLibraries libraries => .setLibraries libraries

end Call

/-- The tables after a sequence of calls. -/
def runCalls (cs : List Call) : Db := cs.foldl (Call.apply toId) {}

/-- The model after a sequence of calls. -/
def modelCalls (cs : List Call) : Files × Set AccessRule :=
  cs.foldl (fun m c => ((c.op toId m.1).files m.1, (c.op toId m.1).rules m.1 m.2))
    (Db.filesOf {}, ∅)

/-- Every file has one rule for each user that shares it, and its creator may write. -/
def OneRule (db : Db) : Prop :=
  ∀ f ∈ db.files, IsWriter db f.creator f.id ∧
    ∀ u, (db.accessRules.filter fun r => r.userId = u && r.abnfFileId = f.id).length ≤ 1

/-- Behind every call the rules are those of the model. -/
def Follows (cs : List Call) : Prop :=
  ∀ pre, pre <+: cs → (runCalls toId pre).rulesOf = (modelCalls toId pre).2 ∧
    OneRule (runCalls toId pre)

/-- A call that shares an existing file, for reading or writing, with a user who has no rule
on it. -/
def Shares (db : Db) : Call → Prop
  | .shareFile userId fileId permissions =>
      (permissions.val = ascii "r" ∨ permissions.val = ascii "w") ∧
        db.creatorOf (toId fileId) ≠ none ∧ db.hasRule (toId userId) (toId fileId) = false
  | _ => False

end Calls

/-! ## The tables behind a call -/

section

variable {toId : Bytes → Nat} {db : Db}

theorem sized_arg (s : Arg) : sized (some s.val) = .ok s.val :=
  sized_ok.mpr ⟨rfl, s.property⟩

theorem apply_of_ok {c : Call} {db' : Db} (h : c.result toId db = .ok db') :
    c.apply toId db = db' := by rw [Call.apply, h]

theorem apply_of_not_ok {c : Call} (h : ∀ db', c.result toId db ≠ .ok db') :
    c.apply toId db = db := by
  rw [Call.apply]
  cases hres : c.result toId db with
  | ok db' => exact absurd hres (h db')
  | error x => rfl

theorem isSome_creatorOf (id : Nat) : (db.creatorOf id).isSome = (db.find? id).isSome :=
  Option.isSome_map

theorem creatorOf_eq_some {id u : Nat} :
    db.creatorOf id = some u ↔ ∃ f, db.find? id = some f ∧ f.creator = u :=
  Option.map_eq_some_iff

theorem apply_createNewFile (n : Arg) (l : Option Bytes) (u : Nat) :
    Call.apply toId db (.createNewFile n l u) =
      if ∃ x ∈ l, toId x ∈ db.libraries then db.insert n (l.map toId) none u else db := by
  split
  · next h =>
      refine apply_of_ok ?_
      rw [Call.result, AbnfFile.createNewFile, bind_ok]
      exact ⟨n, sized_arg n, bind_ok.mpr ⟨(), check_ok.mpr h, rfl⟩⟩
  · next h =>
      refine apply_of_not_ok fun db' hok => h ?_
      rw [Call.result, AbnfFile.createNewFile, bind_ok] at hok
      obtain ⟨_, _, hok⟩ := hok
      obtain ⟨_, hcheck, _⟩ := bind_ok.mp hok
      exact check_ok.mp hcheck

theorem apply_copyFile (i n l : Arg) (u : Nat) : ∃ content,
    Call.apply toId db (.copyFile i n l u) =
      if (db.creatorOf (toId i)).isSome = true ∧ toId l ∈ db.libraries then
        db.insert n (some (toId l)) content u
      else db := by
  rw [isSome_creatorOf]
  by_cases h : (db.find? (toId i)).isSome = true ∧ toId l ∈ db.libraries
  · obtain ⟨f, hf⟩ := Option.isSome_iff_exists.mp h.1
    refine ⟨f.content, ?_⟩
    rw [if_pos h]
    refine apply_of_ok ?_
    simp only [Call.result, AbnfFile.copyFile, bind_ok, sized_arg, check_ok, find_ok]
    exact ⟨_, rfl, _, rfl, _, rfl, (), h.1, (), h.2, f, hf, rfl⟩
  · refine ⟨none, ?_⟩
    rw [if_neg h]
    refine apply_of_not_ok fun db' hok => h ?_
    simp only [Call.result, AbnfFile.copyFile, bind_ok, sized_arg, check_ok, find_ok] at hok
    obtain ⟨_, _, _, hi, _, hl, _, hfile, _, hlibrary, _⟩ := hok
    cases hi
    cases hl
    exact ⟨hfile, hlibrary⟩

theorem apply_shareFile (u i p : Arg) : Call.apply toId db (.shareFile u i p) = db := by
  refine apply_of_not_ok fun db' hok => ?_
  obtain ⟨x, hx⟩ := @shareFile_eq_error toId (some u.val) (some i.val) (some p.val) db
  rw [Call.result, hx] at hok
  cases hok

theorem apply_unshareFile (u : Nat) (i : Arg) : Call.apply toId db (.unshareFile u i) =
    if db.creatorOf (toId i) ≠ none ∧ db.creatorOf (toId i) ≠ some u then
      db.unshare u (toId i)
    else db := by
  split
  · next h =>
      obtain ⟨c, hc⟩ := Option.ne_none_iff_exists'.mp h.1
      obtain ⟨f, hf, rfl⟩ := creatorOf_eq_some.mp hc
      refine apply_of_ok (unshareFile_ok.mpr ⟨i, f, ⟨rfl, i.property⟩, hf, ?_, rfl⟩)
      rintro rfl
      exact h.2 hc
  · next h =>
      refine apply_of_not_ok fun db' hok => h ?_
      obtain ⟨i', f, ⟨hi, _⟩, hf, hne, _⟩ := unshareFile_ok.mp hok
      cases hi
      have hcreator : db.creatorOf (toId i) = some f.creator := creatorOf_eq_some.mpr ⟨f, hf, rfl⟩
      rw [hcreator]
      exact ⟨Option.some_ne_none _, fun heq => hne (Option.some.inj heq)⟩

theorem apply_deleteFile (i : Arg) (u : Nat) : Call.apply toId db (.deleteFile i u) =
    if db.creatorOf (toId i) = some u then db.delete (toId i) else db := by
  split
  · next h =>
      obtain ⟨f, hf, hu⟩ := creatorOf_eq_some.mp h
      exact apply_of_ok (deleteFile_ok.mpr ⟨i, f, ⟨rfl, i.property⟩, hf, hu, rfl⟩)
  · next h =>
      refine apply_of_not_ok fun db' hok => h ?_
      obtain ⟨i', f, ⟨hi, _⟩, hf, hu, _⟩ := deleteFile_ok.mp hok
      cases hi
      exact creatorOf_eq_some.mpr ⟨f, hf, hu⟩

/-- A file gets another name or library, if it is there. -/
def Overwritten (db db' : Db) : Prop :=
  db' = db ∨ ∃ id g, (∀ f : AbnfFile, (g f).id = f.id ∧ (g f).creator = f.creator) ∧
    db' = db.updateAttributes id g

theorem apply_renameFile (i n : Arg) :
    Overwritten db (Call.apply toId db (.renameFile i n)) := by
  rw [Call.apply]
  cases hres : Call.result toId db (.renameFile i n) with
  | error x => exact .inl rfl
  | ok db' =>
      obtain ⟨i', n', _, _, _, rfl⟩ := renameFile_ok.mp hres
      exact .inr ⟨toId i', fun f => { f with name := n' }, fun f => ⟨rfl, rfl⟩, rfl⟩

theorem apply_moveFile (i l : Arg) : Overwritten db (Call.apply toId db (.moveFile i l)) := by
  rw [Call.apply]
  cases hres : Call.result toId db (.moveFile i l) with
  | error x => exact .inl rfl
  | ok db' =>
      obtain ⟨i', l', _, _, _, _, rfl⟩ := moveFile_ok.mp hres
      exact .inr ⟨toId i', fun f => { f with libraryId := some (toId l') },
        fun f => ⟨rfl, rfl⟩, rfl⟩

/-! ## Files and rules of changed tables -/

theorem filesOf_insert (hv : db.Valid) (name : Bytes) (libraryId : Option Nat)
    (content : Option Bytes) (u : Nat) :
    (db.insert name libraryId content u).filesOf = db.filesOf.add u := by
  have hcreator : (db.insert name libraryId content u).creatorOf =
      Function.update db.creatorOf db.nextId (some u) := by
    funext n
    rw [Db.creatorOf, Db.find?, Db.insert, List.find?_append, ← Db.find?]
    by_cases hn : n = db.nextId
    · have hnone : db.find? n = none := by
        rw [Db.find?, List.find?_eq_none]
        intro f hf
        have hlt := hv.files_lt f hf
        rw [decide_eq_true_iff]
        omega
      subst hn
      rw [hnone, Function.update_self]
      simp
    · have hne : ¬ db.nextId = n := fun h => hn h.symm
      rw [Function.update_of_ne hn, Db.creatorOf]
      simp [hne]
  rw [Db.filesOf, hcreator]
  rfl

theorem filesOf_delete (id : Nat) : (db.delete id).filesOf = db.filesOf.remove id := by
  have hcreator : (db.delete id).creatorOf = Function.update db.creatorOf id none := by
    funext n
    rw [Db.creatorOf, Db.find?, Db.delete, List.find?_filter]
    by_cases hn : n = id
    · subst hn
      rw [Function.update_self, List.find?_eq_none.mpr (by simp), Option.map_none]
    · rw [Function.update_of_ne hn, Db.creatorOf, Db.find?]
      congr 2
      funext f
      by_cases hf : f.id = n
      · simp [hf, hn]
      · simp [hf]
  rw [Db.filesOf, hcreator]
  rfl

theorem Overwritten.filesOf {db' : Db} (h : Overwritten db db') : db'.filesOf = db.filesOf := by
  obtain rfl | ⟨id, g, hg, rfl⟩ := h
  · rfl
  · have hcreator : (db.updateAttributes id g).creatorOf = db.creatorOf := by
      funext n
      rw [Db.creatorOf, Db.find?_updateAttributes fun f => (hg f).1, Option.map_map, Db.creatorOf]
      congr 1
      funext f
      rw [Function.comp_apply]
      split
      · exact (hg f).2
      · rfl
    rw [Db.filesOf, hcreator]
    rfl

theorem Overwritten.accessRules {db' : Db} (h : Overwritten db db') :
    db'.accessRules = db.accessRules := by
  obtain rfl | ⟨id, g, hg, rfl⟩ := h <;> rfl

theorem rulesOf_insert (name : Bytes) (libraryId : Option Nat) (content : Option Bytes) (u : Nat) :
    (db.insert name libraryId content u).rulesOf =
      insert ⟨u, db.nextId, ascii "w"⟩ db.rulesOf := by
  ext r
  rw [Db.rulesOf, Set.mem_ofPred_eq, Db.insert, List.mem_append, List.mem_singleton, or_comm]
  rfl

theorem rulesOf_delete (id : Nat) :
    (db.delete id).rulesOf = { r | r ∈ db.rulesOf ∧ ¬ r.abnfFileId = id } := by
  ext r
  simp [Db.rulesOf, Db.delete]

theorem rulesOf_unshare (u id : Nat) : (db.unshare u id).rulesOf =
    { r | r ∈ db.rulesOf ∧ ¬ (r.userId = u ∧ r.abnfFileId = id) } := by
  ext r
  simp [Db.rulesOf, Db.unshare, imp_iff_not_or]

theorem hasRule_eq_false {u id : Nat} :
    db.hasRule u id = false ↔ ∀ p, (⟨u, id, p⟩ : AccessRule) ∉ db.rulesOf := by
  rw [Db.hasRule, List.any_eq_false]
  constructor
  · intro h p hp
    have hnot := h _ hp
    simp at hnot
  · intro h r hr heq
    rw [Bool.and_eq_true, decide_eq_true_eq, decide_eq_true_eq] at heq
    refine h r.permissions ?_
    rw [← heq.1, ← heq.2]
    exact hr

/-! ## One call -/

/-- What an operation does to the tables. -/
inductive Effect (db : Db) : Op → Db → Prop where
  | add (name : Bytes) (libraryId : Option Nat) (content : Option Bytes) (userId : Nat) :
      Effect db (.add userId) (db.insert name libraryId content userId)
  | share (userId fileId : Nat) (permissions : Bytes) :
      Effect db (.share userId fileId permissions) db
  | unshare {userId fileId : Nat} :
      db.creatorOf fileId ≠ none → db.creatorOf fileId ≠ some userId →
        Effect db (.unshare userId fileId) (db.unshare userId fileId)
  | notSharer {userId fileId : Nat} :
      ¬ (db.creatorOf fileId ≠ none ∧ db.creatorOf fileId ≠ some userId) →
        Effect db (.unshare userId fileId) db
  | delete {userId fileId : Nat} :
      db.creatorOf fileId = some userId → Effect db (.delete fileId userId) (db.delete fileId)
  | notOwner {userId fileId : Nat} :
      db.creatorOf fileId ≠ some userId → Effect db (.delete fileId userId) db
  | setLibraries (libraries : List Nat) :
      Effect db (.setLibraries libraries) { db with libraries := libraries }
  | skip {db' : Db} : Overwritten db db' → Effect db .skip db'

theorem apply_effect (c : Call) : Effect db (c.op toId db.filesOf) (c.apply toId db) := by
  cases c with
  | createNewFile n l u =>
      have hop : Call.op toId db.filesOf (.createNewFile n l u) =
          if ∃ x ∈ l, toId x ∈ db.libraries then .add u else .skip := rfl
      rw [apply_createNewFile, hop]
      by_cases h : ∃ x ∈ l, toId x ∈ db.libraries
      · rw [if_pos h, if_pos h]
        exact .add _ _ _ _
      · rw [if_neg h, if_neg h]
        exact .skip (.inl rfl)
  | importFile name content l u => exact .add _ _ _ _
  | copyFile i n l u =>
      have hop : Call.op toId db.filesOf (.copyFile i n l u) =
          if (db.creatorOf (toId i)).isSome = true ∧ toId l ∈ db.libraries then .add u
          else .skip := rfl
      obtain ⟨content, hcopy⟩ := @apply_copyFile toId db i n l u
      rw [hcopy, hop]
      by_cases h : (db.creatorOf (toId i)).isSome = true ∧ toId l ∈ db.libraries
      · rw [if_pos h, if_pos h]
        exact .add _ _ _ _
      · rw [if_neg h, if_neg h]
        exact .skip (.inl rfl)
  | shareFile u i p =>
      rw [apply_shareFile]
      exact .share _ _ _
  | unshareFile u i =>
      rw [apply_unshareFile]
      split
      · next h => exact .unshare h.1 h.2
      · next h => exact .notSharer h
  | renameFile i n => exact .skip (apply_renameFile i n)
  | moveFile i l => exact .skip (apply_moveFile i l)
  | deleteFile i u =>
      rw [apply_deleteFile]
      split
      · next h => exact .delete h
      · next h => exact .notOwner h
  | setLibraries ls => exact .setLibraries ls

namespace Effect

variable {o : Op} {db' : Db}

/-- The files follow the model. -/
theorem filesOf (h : Effect db o db') (hv : db.Valid) : db'.filesOf = o.files db.filesOf := by
  cases h with
  | add name l content u => exact filesOf_insert hv _ _ _ _
  | share u i p => rfl
  | unshare hsome hne => rfl
  | notSharer hnot => rfl
  | delete hu => exact (filesOf_delete _).trans (if_pos hu).symm
  | notOwner hu => exact (if_neg hu).symm
  | setLibraries ls => rfl
  | skip hover => exact hover.filesOf

theorem valid (h : Effect db o db') (hv : db.Valid) : db'.Valid := by
  cases h with
  | add name l content u => exact hv.insert _ _ _ _
  | share u i p => exact hv
  | unshare hsome hne =>
      obtain ⟨c, hc⟩ := Option.ne_none_iff_exists'.mp hsome
      obtain ⟨f, hf, rfl⟩ := creatorOf_eq_some.mp hc
      refine hv.unshare hf ?_
      rintro rfl
      exact hne hc
  | notSharer hnot => exact hv
  | delete hu => exact hv.delete
  | notOwner hu => exact hv
  | setLibraries ls => exact ⟨hv.nodup, hv.files_lt, hv.rules_lt, hv.creator_writes⟩
  | skip hover =>
      obtain rfl | ⟨id, g, hg, rfl⟩ := hover
      · exact hv
      · exact hv.updateAttributes hg

/-- A share that the model refuses. -/
def Refused (db : Db) : Op → Prop
  | .share userId fileId permissions =>
      ¬ ((permissions = ascii "r" ∨ permissions = ascii "w") ∧ db.creatorOf fileId ≠ none ∧
        ∀ p, (⟨userId, fileId, p⟩ : AccessRule) ∉ db.rulesOf)
  | _ => True

/-- The rules follow the model up to a share that it does not refuse. -/
theorem rulesOf_iff (h : Effect db o db') :
    db'.rulesOf = o.rules db.filesOf db.rulesOf ↔ Refused db o := by
  cases h with
  | add name l content u => exact iff_of_true (rulesOf_insert _ _ _ _) trivial
  | share u i p =>
      constructor
      · intro heq hallowed
        have hmem : (⟨u, i, p⟩ : AccessRule) ∈ db.rulesOf := by
          rw [heq]
          exact .inr ⟨rfl, hallowed⟩
        exact hallowed.2.2 p hmem
      · intro hrefused
        ext r
        exact ⟨.inl, fun hr => hr.resolve_right fun hnew => hrefused hnew.2⟩
  | @unshare u i hsome hne =>
      refine iff_of_true ?_ trivial
      rw [rulesOf_unshare]
      ext r
      refine and_congr_right fun _ => not_congr ?_
      exact ⟨fun hr => ⟨hr.1, hr.2, hsome, hne⟩, fun hr => ⟨hr.1, hr.2.1⟩⟩
  | @notSharer u i hnot =>
      refine iff_of_true ?_ trivial
      ext r
      exact ⟨fun hr => ⟨hr, fun hall => hnot hall.2.2⟩, fun hr => hr.1⟩
  | @delete u i hu =>
      refine iff_of_true ?_ trivial
      rw [rulesOf_delete]
      ext r
      refine and_congr_right fun _ => not_congr ?_
      exact ⟨fun hr => ⟨hr, hu⟩, fun hr => hr.1⟩
  | @notOwner u i hu =>
      refine iff_of_true ?_ trivial
      ext r
      exact ⟨fun hr => ⟨hr, fun hall => hu hall.2⟩, fun hr => hr.1⟩
  | setLibraries ls => exact iff_of_true rfl trivial
  | skip hover =>
      refine iff_of_true ?_ trivial
      rw [Db.rulesOf, hover.accessRules]
      rfl

end Effect

theorem refused_iff (c : Call) : Effect.Refused db (c.op toId db.filesOf) ↔ ¬ Shares toId db c := by
  cases c with
  | shareFile u i p =>
      rw [Shares, hasRule_eq_false]
      rfl
  | createNewFile n l u =>
      refine iff_of_true ?_ id
      rw [Call.op]
      split <;> trivial
  | copyFile i n l u =>
      refine iff_of_true ?_ id
      rw [Call.op]
      split <;> trivial
  | importFile name content l u => exact iff_of_true trivial id
  | unshareFile u i => exact iff_of_true trivial id
  | renameFile i n => exact iff_of_true trivial id
  | moveFile i l => exact iff_of_true trivial id
  | deleteFile i u => exact iff_of_true trivial id
  | setLibraries ls => exact iff_of_true trivial id

/-! ## Every run -/

/-- The users of the rules of each file are different. -/
def Keyed (db : Db) : Prop := (db.accessRules.map fun r => (r.userId, r.abnfFileId)).Nodup

theorem Effect.keyed {o : Op} {db' : Db} (h : Effect db o db') (hv : db.Valid) (hk : Keyed db) :
    Keyed db' := by
  cases h with
  | add name l content u =>
      rw [Keyed, Db.insert, List.map_append, List.nodup_append]
      refine ⟨hk, List.nodup_singleton _, ?_⟩
      intro key hkey new hnew heq
      obtain ⟨r, hr, rfl⟩ := List.mem_map.mp hkey
      rw [List.map_singleton, List.mem_singleton] at hnew
      rw [hnew] at heq
      have hlt := hv.rules_lt r hr
      have hid : r.abnfFileId = db.nextId := (Prod.mk.inj heq).2
      omega
  | share u i p => exact hk
  | unshare hsome hne => exact List.Nodup.sublist (List.filter_sublist.map _) hk
  | notSharer hnot => exact hk
  | delete hu => exact List.Nodup.sublist (List.filter_sublist.map _) hk
  | notOwner hu => exact hk
  | setLibraries ls => exact hk
  | skip hover =>
      rw [Keyed, hover.accessRules]
      exact hk

theorem oneRule_of_keyed (hv : db.Valid) (hk : Keyed db) : OneRule db := by
  refine fun f hf => ⟨hv.creator_writes f hf, fun u => ?_⟩
  have hnodup : ((db.accessRules.filter fun r => r.userId = u && r.abnfFileId = f.id).map
      fun r => (r.userId, r.abnfFileId)).Nodup := List.Nodup.sublist (List.filter_sublist.map _) hk
  have hsame : ∀ key ∈ (db.accessRules.filter fun r => r.userId = u && r.abnfFileId = f.id).map
      (fun r => (r.userId, r.abnfFileId)), key = (u, f.id) := by
    intro key hkey
    obtain ⟨r, hr, rfl⟩ := List.mem_map.mp hkey
    have hkeys := (List.mem_filter.mp hr).2
    rw [Bool.and_eq_true, decide_eq_true_eq, decide_eq_true_eq] at hkeys
    rw [hkeys.1, hkeys.2]
  rw [List.eq_replicate_of_mem hsame, List.nodup_replicate, List.length_map] at hnodup
  exact hnodup

end

section

variable {toId : Bytes → Nat}

theorem runCalls_append (cs : List Call) (c : Call) :
    runCalls toId (cs ++ [c]) = c.apply toId (runCalls toId cs) := by
  rw [runCalls, List.foldl_append]
  rfl

theorem modelCalls_append (cs : List Call) (c : Call) : modelCalls toId (cs ++ [c]) =
    ((c.op toId (modelCalls toId cs).1).files (modelCalls toId cs).1,
      (c.op toId (modelCalls toId cs).1).rules (modelCalls toId cs).1 (modelCalls toId cs).2) := by
  rw [modelCalls, List.foldl_append]
  rfl

/-- What holds behind every sequence of calls. -/
theorem runCalls_invariant (cs : List Call) : (runCalls toId cs).Valid ∧
    Keyed (runCalls toId cs) ∧ (runCalls toId cs).filesOf = (modelCalls toId cs).1 := by
  induction cs using List.reverseRecOn with
  | nil => exact ⟨@valid_run toId [], .nil, rfl⟩
  | append_singleton cs c ih =>
      obtain ⟨hv, hk, hfiles⟩ := ih
      have heffect := @apply_effect toId (runCalls toId cs) c
      rw [runCalls_append, modelCalls_append]
      refine ⟨heffect.valid hv, heffect.keyed hv hk, ?_⟩
      rw [heffect.filesOf hv, hfiles]

/-- Rules that followed the model go on to do so unless the model shares. -/
theorem rules_append_iff {pre : List Call} {c : Call}
    (hrules : (runCalls toId pre).rulesOf = (modelCalls toId pre).2) :
    (runCalls toId (pre ++ [c])).rulesOf = (modelCalls toId (pre ++ [c])).2 ↔
      ¬ Shares toId (runCalls toId pre) c := by
  obtain ⟨-, -, hfiles⟩ := @runCalls_invariant toId pre
  rw [runCalls_append, modelCalls_append, ← hrules, ← hfiles, ← refused_iff]
  exact (apply_effect c).rulesOf_iff

/-- The rules follow the model as long as no call shares a file that it may share. -/
theorem access_rules_follow_iff (toId : Bytes → Nat) (cs : List Call) :
    Follows toId cs ↔ ∀ pre c, pre ++ [c] <+: cs → ¬ Shares toId (runCalls toId pre) c := by
  constructor
  · intro hfollows pre c hpre
    refine (rules_append_iff (hfollows pre ?_).1).mp (hfollows (pre ++ [c]) hpre).1
    exact (List.prefix_append pre [c]).trans hpre
  · intro hnot pre hpre
    obtain ⟨hv, hk, -⟩ := @runCalls_invariant toId pre
    refine ⟨?_, oneRule_of_keyed hv hk⟩
    induction pre using List.reverseRecOn with
    | nil =>
        ext r
        exact ⟨fun hr => absurd hr List.not_mem_nil, fun hr => absurd hr (Set.notMem_empty r)⟩
    | append_singleton pre c ih =>
        obtain ⟨hv', hk', -⟩ := @runCalls_invariant toId pre
        have hrules := ih ((List.prefix_append pre [c]).trans hpre) hv' hk'
        exact (rules_append_iff hrules).mpr (hnot pre c hpre)

/-- User 1 uploads a file. -/
def upload : Call := .importFile (ascii "a.bnf") [] none 1

/-- The file 1 is shared with user 2 for reading. -/
def shareWithTwo : Call :=
  .shareFile ⟨ascii "2", by decide⟩ ⟨ascii "1", by decide⟩ ⟨ascii "r", by decide⟩

/-- User 2 has no rule on the file then. -/
theorem share_raises : ¬ Follows readNat [upload, shareWithTwo] := by
  intro hfollows
  have hbefore := (hfollows [upload] (List.prefix_append _ _)).1
  have hafter := (hfollows [upload, shareWithTwo] (List.prefix_refl _)).1
  refine (rules_append_iff hbefore).mp hafter ?_
  exact ⟨.inl rfl, by decide, by decide⟩

end

end Stress.Webui
