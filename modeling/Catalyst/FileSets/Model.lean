import Catalyst.Core
import Catalyst.Library.Processes
import Catalyst.Library.Table

/-!
# File sets of Pages and their cleanup

A save makes sure of its Page, writes the objects of a new file set and then the row that
names them. A conversation that is deleted is cleaned up Page by Page: the objects below the
Page's prefix, then its rows. Object storage and database are written one after the other, and
a call may break off between any two of its steps.

Each `put` lands at a moment of its own, and so does the removal that follows a failed one: a
save comes with the order in which they do. What is put while a prefix is being deleted counts
as put after it. Limits on the files and the files' contents are checked before the first step.
-/

namespace Catalyst.FileSets

open Library

abbrev PageId := Nat

abbrev FileSetId := Nat

structure Page where
  id : PageId
  name : String
  deriving DecidableEq

structure FileSet where
  id : FileSetId
  pageId : PageId
  number : Nat
  deriving DecidableEq

/-- `pages/<page>/<file set>/<path>` -/
structure ObjectKey where
  pageId : PageId
  fileSetId : FileSetId
  path : String
  deriving DecidableEq

/-- The rows of one conversation's Pages and the stored objects below their prefixes. -/
structure Db where
  active : Bool
  pages : List Page
  fileSets : List FileSet
  objects : List ObjectKey
  nextPage : PageId
  nextFileSet : FileSetId
  deriving DecidableEq

def Db.HasPage (db : Db) (page : PageId) : Prop := ∃ p ∈ db.pages, p.id = page
  deriving Decidable

def Db.Holds (db : Db) (fileSet : FileSetId) : Prop := ∃ o ∈ db.objects, o.fileSetId = fileSet
  deriving Decidable

def conversationMaxPages : Nat := 200

def pageMaxFileSets : Nat := 1000

def pageLimit : AppError :=
  ⟨.validationFailed, s!"This conversation holds {conversationMaxPages} Pages, which is the most one conversation keeps (CONVERSATION_MAX_PAGES). Save under the name of an existing Page or start a new conversation."⟩

def pageRevisionLimit : AppError :=
  ⟨.validationFailed, s!"This Page has {pageMaxFileSets} revisions, which is the most one Page keeps (PAGE_MAX_FILE_SETS). Save it under a new name to go on."⟩

def ensurePage (db : Db) (name : String) : Except AppError (PageId × Db) :=
  match db.pages.find? (·.name = name) with
  | some existing => .ok (existing.id, db)
  | none =>
    if conversationMaxPages ≤ db.pages.length then .error pageLimit
    else .ok (db.nextPage, { db with pages := db.pages ++ [⟨db.nextPage, name⟩], nextPage := db.nextPage + 1 })

def Db.numbersOf (db : Db) (page : PageId) : List Nat := (db.fileSets.filter (·.pageId = page)).map (·.number)

def createPageFileSet (db : Db) (page : PageId) (fileSet : FileSetId) : Except AppError Db :=
  if db.HasPage page then
    if pageMaxFileSets ≤ (db.numbersOf page).length then .error pageRevisionLimit
    else .ok { db with fileSets := db.fileSets ++ [⟨fileSet, page, (db.numbersOf page).foldl max 0 + 1⟩] }
  else .error ⟨.internal, "The Page of the file set does not exist"⟩

def put (db : Db) (key : ObjectKey) : Db := { db with objects := key :: db.objects }

def deletePagePrefix (db : Db) (page : PageId) : Db :=
  { db with objects := deleteWhere (fun o => o.pageId = page) db.objects }

def deleteFileSetPrefix (db : Db) (page : PageId) (fileSet : FileSetId) : Db :=
  { db with objects := deleteWhere (fun o => o.pageId = page ∧ o.fileSetId = fileSet) db.objects }

/-- What the transaction of `deletePage` commits: the file sets its first statement found, and the Page. -/
def deletePage (db : Db) (page : PageId) (found : List FileSetId) : Db :=
  { db with
    fileSets := deleteWhere (fun f => f.id ∈ found) db.fileSets
    pages := deleteWhere (fun p => p.id = page) db.pages }

/-- What becomes of a save's objects, in the order it does: a `put` leaves its object or not, and is
answered or fails; after a failure the file set's prefix is deleted, or that fails too. -/
inductive StoreEvent
  | put (path : String) (landed answered : Bool)
  | remove (done : Bool)
  deriving DecidableEq

/-- `removed` is how the removal ends that follows a failure to record the file set. -/
inductive Call
  | storePageFileSet (pageName : String) (events : List StoreEvent) (removed : Bool)
  | deleteConversationPages
  deriving DecidableEq

structure Saving where
  page : PageId
  fileSet : FileSetId
  removed : Bool
  deriving DecidableEq

/-- Where a call stands: what it does next. -/
inductive Going
  | checking (pageName : String) (events : List StoreEvent) (removed : Bool)
  | ensuring (pageName : String) (events : List StoreEvent) (removed : Bool)
  | writing (saving : Saving) (events : List StoreEvent) (failed : Bool)
  | recording (saving : Saving)
  | removing (saving : Saving)
  /-- The removal is over, and objects of the failed save are still on their way. -/
  | straying (saving : Saving) (events : List StoreEvent)
  | listing
  | emptying (pages : List PageId)
  | emptied (page : PageId) (rest : List PageId)
  | deleting (page : PageId) (found : List FileSetId) (rest : List PageId)
  deriving DecidableEq

inductive Answer
  | stored (page : PageId) (fileSet : FileSetId)
  | refused (error : AppError)
  | failed
  | cleaned
  deriving DecidableEq

abbrev StepResult := Option Answer × Option Going × Db

def answered (db : Db) (answer : Answer) : StepResult := (some answer, none, db)

def goesTo (db : Db) (g : Going) : StepResult := (none, some g, db)

def putEvent (db : Db) (saving : Saving) (path : String) (landed : Bool) : Db :=
  if landed then put db ⟨saving.page, saving.fileSet, path⟩ else db

def remove (db : Db) (saving : Saving) (done : Bool) : Db :=
  if done then deleteFileSetPrefix db saving.page saving.fileSet else db

def writes (db : Db) (saving : Saving) (failed : Bool) : List StoreEvent → StepResult
  | [] => goesTo db (if failed then .removing saving else .recording saving)
  | .put path landed answered :: events =>
    goesTo (putEvent db saving path landed) (.writing saving events (failed || !answered))
  | .remove done :: events =>
    -- only a save that has failed removes what it put
    if failed then goesTo (remove db saving done) (.straying saving events)
    else goesTo db (.writing saving events failed)

def strays (db : Db) (saving : Saving) : List StoreEvent → StepResult
  | [] => answered db .failed
  | .put path landed _ :: events => goesTo (putEvent db saving path landed) (.straying saving events)
  | .remove _ :: events => goesTo db (.straying saving events)

def step (db : Db) : Going → StepResult
  | .checking pageName events removed =>
    if db.active then goesTo db (.ensuring pageName events removed)
    else answered db (.refused ⟨.notFound, "Conversation is not available"⟩)
  | .ensuring pageName events removed =>
    match ensurePage db pageName with
    | .ok (page, db') =>
      goesTo { db' with nextFileSet := db'.nextFileSet + 1 } (.writing ⟨page, db'.nextFileSet, removed⟩ events false)
    | .error e => answered db (.refused e)
  | .writing saving events failed => writes db saving failed events
  | .recording saving =>
    match createPageFileSet db saving.page saving.fileSet with
    | .ok db' => answered db' (.stored saving.page saving.fileSet)
    | .error _ => goesTo db (.removing saving)
  | .removing saving => answered (remove db saving saving.removed) .failed
  | .straying saving events => strays db saving events
  | .listing => goesTo db (.emptying (db.pages.map (·.id)))
  | .emptying [] => answered db .cleaned
  | .emptying (page :: rest) => goesTo (deletePagePrefix db page) (.emptied page rest)
  | .emptied page rest =>
    goesTo db (.deleting page ((db.fileSets.filter (·.pageId = page)).map (·.id)) rest)
  | .deleting page found rest => goesTo (deletePage db page found) (.emptying rest)

def Call.starts : Call → Going
  | storePageFileSet pageName events removed => .checking pageName events removed
  | deleteConversationPages => .listing

inductive Claim
  | claim
  deriving DecidableEq

def pageCalls : Processes Db Call Going Claim Answer where
  start := Call.starts
  blocks _ _ := False
  step := step
  env db _ := (none, { db with active := false })

abbrev PagePool := Pool Db Going

abbrev PageMove := Move Call Claim

def Claimed (s : PagePool) : PageMove → Prop
  | .start .deleteConversationPages => s.store.active = false
  | _ => True

instance : DecidablePred (Claimed s) := fun a => by
  unfold Claimed
  split <;> infer_instance

def pageSystem : Machine PagePool PageMove (Option Answer) :=
  pageCalls.machine (fun db => db.active = true ∧ db.pages = [] ∧ db.fileSets = [] ∧ db.objects = []) Claimed

end Catalyst.FileSets
