import AluVm.Reg.Number
import AluVm.Cursor.Basic
import AluVm.Cursor.Read
import AluVm.Cursor.Write
import AluVm.Cursor.Ops
import AluVm.Cursor.Step
import AluVm.Cursor.Bytes
import AluVm.Cursor.Bits
import AluVm.Cursor.WriteSpec
import AluVm.Cursor.ReadSpec
import AluVm.Cursor.Safety
import AluVm.Cursor.Errors
import AluVm.Cursor.Seek
import AluVm.Cursor.Eof
import AluVm.Cursor.Value
import AluVm.Cursor.Position
import AluVm.Cursor.RoundTrip
import AluVm.Cursor.Canonical
import AluVm.Cursor.Locality
import AluVm.Cursor.Encoding
import AluVm.Cursor.Decode
import AluVm.Cursor.Layout
