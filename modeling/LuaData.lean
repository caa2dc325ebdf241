import LuaData.Json.Settings
import LuaData.Session.Pool
import LuaData.Session.Run
import LuaData.Proofs.Refinement
import LuaData.Proofs.Resumption
import LuaData.Proofs.Instance
import LuaData.Proofs.Traversal
import LuaData.Proofs.Invariance
import LuaData.Proofs.Keeping
import LuaData.Proofs.Lifetimes
import LuaData.Proofs.Plain
import LuaData.Proofs.Twins
import LuaData.Proofs.Independence
import LuaData.Proofs.Ordering
import LuaData.Proofs.Equality
import LuaData.Proofs.RoundTrip
import LuaData.Proofs.Restoring
import LuaData.Proofs.Searching
import LuaData.Proofs.Limit
import LuaData.Proofs.Coercion
import LuaData.Proofs.ListOperations
import LuaData.Proofs.Numerals
import LuaData.Proofs.Exportable
import LuaData.Proofs.FieldWrites
import LuaData.Proofs.FieldReads
import LuaData.Proofs.Calls
import LuaData.Proofs.Arithmetic
import LuaData.Proofs.Printing
