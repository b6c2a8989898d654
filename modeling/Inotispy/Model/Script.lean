import Inotispy.Model.Request

/-! Outsides that answer from a script. In one every allocation and every directory succeeds,
threads start or not, and the kernel's descriptors are listed in advance; in the other allocations
may fail. -/

set_option autoImplicit false

namespace Inotispy
open Library

structure Script (threadsStart : Bool) where
  descriptors : List Int

instance (threadsStart : Bool) : System (Script threadsStart) where
  malloc s := (true, s)
  pthreadCreate s := (threadsStart, s)
  opendir s _ := (true, s)
  readdir s _ := (some [], s)
  lstat s _ := (.dir, s)
  statIsDir s _ := (true, s)
  inotifyAddWatch s _ _ := (s.descriptors.headD (-1), { s with descriptors := s.descriptors.tail })
  inotifyRmWatch s _ := (0, s)
  fopenDump s := (true, s)
  getpid _ := 1
  uptime _ := 0
  jsonTokenerParse _ := none
  jsonObjectToJsonString _ := []

/-- An outside in which allocations succeed or fail as listed, and then succeed. Of JSON texts
it knows the one that asks for the roots, and one that asks for the size of a queue and does not say which. -/
structure Ration where
  allocations : List Bool

def Ration.pathlessText : Str := str "\x7b\"call\":\"get_queue_size\"\x7d"

def Ration.rootsText : Str := str "\x7b\"call\":\"get_roots\"\x7d"

instance : System Ration where
  malloc s := (s.allocations.headD true, ⟨s.allocations.tail⟩)
  pthreadCreate s := (true, s)
  opendir s _ := (true, s)
  readdir s _ := (some [], s)
  lstat s _ := (.dir, s)
  statIsDir s _ := (true, s)
  inotifyAddWatch s _ _ := (1, s)
  inotifyRmWatch s _ := (0, s)
  fopenDump s := (true, s)
  getpid _ := 1
  uptime _ := 0
  jsonTokenerParse json :=
    if json = Ration.pathlessText then some (.object [(str "call", .string (str "get_queue_size"))])
    else if json = Ration.rootsText then some (.object [(str "call", .string (str "get_roots"))])
    else none
  jsonObjectToJsonString _ := []

def World.watching {σ : Type} (sys : σ) (path : Str) : World σ :=
  { World.initial sys with
    roots :=
      { inotifyRoots := AList.singleton path 0
        inotifyNumWatchedRoots := 1
        heap := fun _ =>
          { path := some path
            mask := inotifyDefaultMask
            maxEvents := 65536
            queue := some []
            destroy := false
            pause := false
            rewatch := false
            persist := false }
        nextRoot := 1 }
    watches :=
      { inotifyWdToWatch := AList.singleton 1 ⟨0, 1, path⟩
        inotifyPathToWatch := AList.singleton path ⟨0, 1, path⟩
        nextWatch := 1
        inserted := [(0, ⟨0, 1, path⟩)] } }

def World.oneRoot (path : Str) : World (Script true) :=
  let start : World (Script true) := World.initial ⟨[]⟩
  { start with
    roots :=
      { inotifyRoots := start.roots.inotifyRoots.insert path 0
        inotifyNumWatchedRoots := 1
        heap := Function.update start.roots.heap 0
          ⟨some path, inotifyDefaultMask, 65536, some [], false, false, false, false⟩
        nextRoot := 1 }
    pool.threads := [.watchTree ⟨some path, 0, false⟩] }

/-- A request as a client sends it, with nothing but a path. -/
def Request.about (call path : String) : Request :=
  { call := some (str call), json := none, parser := .object [(str "path", .string (str path))] }

end Inotispy
