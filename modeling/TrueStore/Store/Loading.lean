import TrueStore.Rdb.Reader
import TrueStore.Store.Keyspace

/-! # Loading a snapshot -/

namespace TrueStore.Keyspace

variable {F : Type} [Platform F]

/-- One turn of `Store::load_entries`. An entry whose time has passed is skipped; the time left to
another one is counted from the reading of the steady clock. Both clocks are in nanoseconds. -/
def loadEntry (systemNow steadyNow : ℤ) (ks : Keyspace F) (entry : Rdb.Entry) : Keyspace F :=
  match entry.expireAtMs with
  | none => { ks with storage := ks.storage.insert entry.key entry.value }
  | some ms =>
    let expireAt := wrap64 (wrap64 ms * 1000000)
    if expireAt ≤ systemNow then ks
    else
      { ks with
        expirations := ks.expirations.insert entry.key
          (wrap64 (steadyNow + wrap64 (expireAt - systemNow)))
        storage := ks.storage.insert entry.key entry.value }

def loadEntries (systemNow steadyNow : ℤ) (entries : List Rdb.Entry) (ks : Keyspace F) :
    Keyspace F :=
  entries.foldl (loadEntry systemNow steadyNow) ks

end TrueStore.Keyspace
