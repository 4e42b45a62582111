import Tito.Accesses
import Tito.Agreement
import Tito.Answered
import Tito.BulkCancel
import Tito.Callers
import Tito.Complexity
import Tito.Diagnosis
import Tito.Explained
import Tito.Failures
import Tito.Fairness
import Tito.Fitting
import Tito.HeapCost
import Tito.Inert
import Tito.Invisible
import Tito.Misuse
import Tito.Policies
import Tito.Racing
import Tito.ReleaseAll
import Tito.Renaming
import Tito.Rollback
import Tito.Signals
import Tito.Strict
import Tito.Surfacing
import Tito.Tally
import Tito.Unlocked
